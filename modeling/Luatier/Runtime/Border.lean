import Luatier.Gc.ClearedTable
import Luatier.Lib.StateFrame

/-!
# The length of a table

`table_length` looks for a border: first down the array part, then up through
the hash part, where it stops looking after ten million elements.
-/

namespace Luatier.Table

variable (L : InternedStrings) (t : Table)

def lastInArray : Nat → Nat
  | 0 => 0
  | n + 1 =>
      if (t.getInt L (Int64.ofNat (n + 1))).isNil then lastInArray n else n + 1

def growInHash (n : Nat) : Nat :=
  if (t.getInt L (Int64.ofNat (n + 1))).isNil then n
  else if 10000000 < n + 1 then n + 1
  else growInHash (n + 1)
termination_by 10000000 - n

/-- `table_length`. -/
def tableLength : Int64 :=
  let n := lastInArray L t t.array.length
  Int64.ofNat (if n < t.array.length then n else growInHash L t n)

/-! ## The two loops -/

def element (k : Nat) : TValue := t.get L (.integer (Int64.ofNat k))

variable {L t}

theorem getInt_ofNat (k : Nat) : t.getInt L (Int64.ofNat k) = t.element L k :=
  getInt_eq_get _

theorem lastInArray_spec (n : Nat) :
    lastInArray L t n ≤ n ∧
      (lastInArray L t n = 0 ∨ t.element L (lastInArray L t n) ≠ .nil) ∧
      ∀ k, lastInArray L t n < k → k ≤ n → t.element L k = .nil := by
  induction n with
  | zero => exact ⟨Nat.le_refl 0, Or.inl rfl, fun k hk hle => by omega⟩
  | succ n ih =>
      obtain ⟨hle, hpresent, habsent⟩ := ih
      rw [lastInArray, getInt_ofNat]
      by_cases hnil : (t.element L (n + 1)).isNil = true
      · rw [if_pos hnil]
        refine ⟨by omega, hpresent, fun k hk hkn => ?_⟩
        rcases Nat.le_succ_iff.mp hkn with hkn | rfl
        · exact habsent k hk hkn
        · exact TValue.isNil_iff.mp hnil
      · rw [if_neg hnil]
        refine ⟨Nat.le_refl _, Or.inr ?_, fun k hk hkn => by omega⟩
        simpa using hnil

theorem growInHash_spec (n : Nat) :
    n ≤ growInHash L t n ∧ growInHash L t n ≤ max n 10000000 + 1 ∧
      (∀ k, n < k → k ≤ growInHash L t n → t.element L k ≠ .nil) ∧
      (t.element L (growInHash L t n + 1) = .nil ∨
        growInHash L t n = max n 10000000 + 1) := by
  induction n using growInHash.induct L t with
  | case1 n hnil =>
      rw [growInHash, if_pos hnil]
      rw [getInt_ofNat] at hnil
      exact ⟨Nat.le_refl n, by omega, fun k hk hle => by omega,
        Or.inl (TValue.isNil_iff.mp hnil)⟩
  | case2 n hnil hcap =>
      rw [growInHash, if_neg hnil, if_pos hcap]
      rw [getInt_ofNat] at hnil
      refine ⟨by omega, by omega, fun k hk hle => ?_, Or.inr (by omega)⟩
      obtain rfl : k = n + 1 := by omega
      simpa using hnil
  | case3 n hnil hcap ih =>
      rw [growInHash, if_neg hnil, if_neg hcap]
      rw [getInt_ofNat] at hnil
      obtain ⟨hle, hmax, hpresent, hend⟩ := ih
      refine ⟨by omega, by omega, fun k hk hkle => ?_, ?_⟩
      · rcases Nat.eq_or_lt_of_le (Nat.succ_le_of_lt hk) with rfl | hlt
        · simpa using hnil
        · exact hpresent k hlt hkle
      · rcases hend with hend | hend
        · exact Or.inl hend
        · exact Or.inr (by omega)

/-! ## The array part of a reachable table -/

theorem rawInsert_array {r r' : Stored} {key value : TValue}
    (h : rawInsert L r key value = .ok r') :
    r'.table.array.length = r.table.array.length := by
  unfold rawInsert at h
  simp only at h
  split at h
  · cases h
    rfl
  · split at h
    · cases h
      simp
    · split at h
      · cases h
        rfl
      · cases h
        rfl
      · exact nomatch h

theorem reinsertArray_array (rest : List TValue) : ∀ {r r' : Stored} {i : Nat},
    reinsertArray L r i rest = .ok r' →
      r'.table.array.length = r.table.array.length := by
  induction rest with
  | nil =>
      intro r r' i h
      cases h
      rfl
  | cons v rest ih =>
      intro r r' i h
      rw [reinsertArray] at h
      split at h
      · exact ih h
      · obtain ⟨r₁, h₁, hrest⟩ := StateFrame.except_bind_ok.mp h
        rw [ih hrest, rawInsert_array h₁]

theorem reinsertHash_array (nodes : List TableNode) : ∀ {r r' : Stored},
    reinsertHash L r nodes = .ok r' →
      r'.table.array.length = r.table.array.length := by
  induction nodes with
  | nil =>
      intro r r' h
      cases h
      rfl
  | cons n nodes ih =>
      intro r r' h
      rw [reinsertHash] at h
      split at h
      · obtain ⟨r₁, h₁, hrest⟩ := StateFrame.except_bind_ok.mp h
        rw [ih hrest, rawInsert_array h₁]
      · exact ih h

theorem rehash_array {arrayHint hashHint : Nat} {r : Stored}
    (h : rehash L t arrayHint hashHint = .ok r) :
    r.table.array.length = arrayHint := by
  obtain ⟨r₁, h₁, h₂⟩ := StateFrame.except_bind_ok.mp h
  rw [reinsertHash_array _ h₂, reinsertArray_array _ h₁, List.length_replicate]

theorem setArray?_array {i : Int64} {value : TValue} {r : Stored}
    (h : t.setArray? i value = some r) :
    r.table.array.length ≤ max t.array.length 64 := by
  unfold setArray? at h
  split at h
  · cases h
    simp
  · split at h
    · cases h
      simp only [List.length_set, List.length_append, List.length_replicate]
      omega
    · exact nomatch h

theorem setHash?_array {lookup value : TValue} {r : Stored}
    (h : t.setHash? L lookup value = some r) : r.table.array = t.array := by
  unfold setHash? at h
  split at h
  · split at h
    · cases h
      rfl
    · cases h
      rfl
  · cases h
    rfl
  · split at h
    · cases h
      rfl
    · obtain ⟨slot, -, rfl⟩ := Option.map_eq_some_iff.mp h
      rfl

theorem set_setInt_array (fuel : Nat) :
    (∀ (t : Table) (key value : TValue) (r : Stored), set L fuel t key value = .ok r →
      r.table.array.length ≤ max t.array.length 64) ∧
    ∀ (t : Table) (i : Int64) (value : TValue) (r : Stored),
      setInt L fuel t i value = .ok r →
      r.table.array.length ≤ max t.array.length 64 := by
  induction fuel with
  | zero =>
      constructor
      · intro t key value r h
        simp only [set, reduceCtorEq] at h
      · intro t i value r h
        simp only [setInt, reduceCtorEq] at h
  | succ fuel ih =>
      obtain ⟨ihset, ihsetInt⟩ := ih
      constructor
      · intro t key value r h
        rw [set] at h
        split at h
        · cases h
        split at h
        · cases h
        simp only at h
        generalize ht₁ : (if metamethodLike L key = true then t.clearTmCache else t) = t₁ at h
        have harray : t₁.array = t.array := by
          rw [← ht₁]
          split <;> rfl
        rw [← harray]
        split at h
        · exact ihsetInt _ _ _ _ h
        split at h
        · cases h
          simp
        generalize ht₂ : (if t₁.hash.isEmpty = true then
          { t₁ with hash := List.replicate 8 {} } else t₁) = t₂ at h
        have harray₂ : t₂.array = t₁.array := by
          rw [← ht₂]
          split <;> rfl
        split at h
        · rename_i r' hr'
          cases h
          rw [setHash?_array hr', harray₂]
          exact Nat.le_max_left _ _
        · obtain ⟨r₁, hre, h⟩ := StateFrame.except_bind_ok.mp h
          obtain ⟨r₂, hset, h⟩ := StateFrame.except_bind_ok.mp h
          cases h
          have hgrown := ihset _ _ _ _ hset
          rw [rehash_array hre, harray₂] at hgrown
          exact hgrown
      · intro t i value r h
        rw [setInt] at h
        split at h
        · rename_i r' hr'
          cases h
          exact setArray?_array hr'
        · exact ihset _ _ _ _ h

theorem Mutation.array_le {t' : Table} (h : Mutation L t t') :
    t'.array.length ≤ max t.array.length 64 := by
  cases h with
  | set hr => exact (set_setInt_array 3).1 _ _ _ _ hr
  | setInt hr => exact (set_setInt_array 4).2 _ _ _ _ hr
  | clearWeakEntries dead mask => simp [array_clearWeakEntries]
  | header metatable optFlags weakMode => exact Nat.le_max_left _ _

theorem tableNew_array {arrayHint hashHint : Nat}
    (hnew : tableNew arrayHint hashHint = .ok t) : t.array.length ≤ vectorMax 16 := by
  unfold tableNew at hnew
  set size := if hashHint = 0 then 8 else doubleUntil hashHint hashHint 1
  by_cases hmax : vectorMax 16 < arrayHint ∨ vectorMax 48 < size
  · rw [if_pos hmax] at hnew
    exact nomatch hnew
  · rw [if_neg hmax] at hnew
    obtain rfl := Except.ok.inj hnew
    rw [List.length_replicate]
    omega

theorem Reachable.array_le (h : t.Reachable L) : t.array.length ≤ vectorMax 16 := by
  obtain ⟨arrayHint, hashHint, t₀, hnew, hrun⟩ := h
  refine Machine.invariant_of_path (fun t : Table => t.array.length ≤ vectorMax 16)
    (fun hle hstep => ?_) (tableNew_array hnew) hrun
  have hgrown := hstep.array_le
  have h64 : 64 ≤ vectorMax 16 := by decide
  omega

/-! ## Borders -/

/-- An index with an element, or zero, and no element behind it. -/
structure Border (L : InternedStrings) (t : Table) (n : Int64) : Prop where
  nonneg : 0 ≤ n.toInt
  present : n.toInt = 0 ∨ t.get L (.integer n) ≠ .nil
  absent : n.toInt = 2 ^ 63 - 1 ∨ t.get L (.integer (n + 1)) = .nil

/-- The positive integer keys of the table are those up to `n`. -/
def Sequence (L : InternedStrings) (t : Table) (n : Nat) : Prop :=
  ∀ k : Int64, 1 ≤ k.toInt → (t.get L (.integer k) ≠ .nil ↔ k.toInt ≤ n)

/-- The array part ends with nil, or an index that the second loop gets to has no element. -/
def GapBelowCap (L : InternedStrings) (t : Table) : Prop :=
  t.array.getLast? = some .nil ∨
    ∃ k, t.array.length < k ∧ k ≤ max t.array.length 10000000 + 2 ∧ t.element L k = .nil

theorem toInt_ofNat {k : Nat} (hk : k < 2 ^ 63) : (Int64.ofNat k).toInt = k := by
  rw [← Int64.ofInt_eq_ofNat, Int64.toInt_ofInt_of_le (by omega) (by omega)]

theorem element_of_lt_array (hlt : t.array.length < 2 ^ 63) {j : Nat}
    (hj : j < t.array.length) : t.element L (j + 1) = t.array.getD j .nil := by
  refine get_array (arrayIndex?_eq_some.mpr ⟨?_, hj⟩)
  rw [toInt_ofNat (by omega)]
  rfl

theorem lastInArray_lt_iff (hlt : t.array.length < 2 ^ 63) :
    lastInArray L t t.array.length < t.array.length ↔ t.array.getLast? = some .nil := by
  rw [List.getLast?_eq_getElem?]
  cases hlen : t.array.length with
  | zero =>
      have hempty : t.array = [] := List.length_eq_zero_iff.mp hlen
      simp [lastInArray, hempty]
  | succ n =>
      have hn : n < t.array.length := by omega
      have helement := element_of_lt_array (L := L) hlt hn
      rw [Nat.add_sub_cancel, lastInArray, getInt_ofNat, helement,
        List.getD_eq_getElem?_getD, List.getElem?_eq_getElem hn, Option.getD_some]
      by_cases hnil : t.array[n] = .nil
      · have hle := (lastInArray_spec (L := L) (t := t) n).1
        rw [if_pos (TValue.isNil_iff.mpr hnil)]
        simp only [hnil, iff_true]
        omega
      · rw [if_neg (by simpa using hnil)]
        simp [hnil]

theorem tableLength_eq (hlt : t.array.length < 2 ^ 63) :
    (t.array.getLast? = some .nil ∧
      tableLength L t = Int64.ofNat (lastInArray L t t.array.length)) ∨
    (t.array.getLast? ≠ some .nil ∧
      lastInArray L t t.array.length = t.array.length ∧
      tableLength L t = Int64.ofNat (growInHash L t t.array.length)) := by
  have hiff := lastInArray_lt_iff (L := L) hlt
  have hle := (lastInArray_spec (L := L) (t := t) t.array.length).1
  unfold tableLength
  simp only
  by_cases h : lastInArray L t t.array.length < t.array.length
  · exact Or.inl ⟨hiff.mp h, by rw [if_pos h]⟩
  · have heq : lastInArray L t t.array.length = t.array.length := by omega
    exact Or.inr ⟨fun hlast => h (hiff.mpr hlast), heq, by rw [if_neg h, heq]⟩

theorem Border.eq_count {n : Int64} {count : Nat} (h : Border L t n)
    (hseq : Sequence L t count) (hcount : count < 2 ^ 63) : n.toInt = count := by
  have hle : n.toInt ≤ count := by
    rcases h.present with hzero | hpresent
    · omega
    · by_cases hpos : 1 ≤ n.toInt
      · exact (hseq n hpos).mp hpresent
      · omega
  rcases h.absent with hmax | habsent
  · omega
  · by_contra hne
    have hnonneg := h.nonneg
    have hsucc : (n + 1).toInt = n.toInt + 1 := by
      rw [Int64.toInt_add]
      exact Int.bmod_eq_of_le (by simp; omega) (by simp; omega)
    exact (hseq (n + 1) (by omega)).mpr (by omega) habsent

/-- The first gap is found if the array part has nothing behind it, nor is it beyond the cap. -/
theorem tableLength_of_gap {n : Nat} (hpresent : ∀ k, 1 ≤ k → k ≤ n → t.element L k ≠ .nil)
    (hgap : t.element L (n + 1) = .nil) (hcap : n ≤ 10000001)
    (harray : t.array.length ≤ n ∨ ∀ k, n < k → k ≤ t.array.length → t.element L k = .nil) :
    tableLength L t = Int64.ofNat n := by
  obtain ⟨hle, hlast, habsent⟩ := lastInArray_spec (L := L) (t := t) t.array.length
  unfold tableLength
  simp only
  by_cases hn : t.array.length ≤ n
  · have hfull : lastInArray L t t.array.length = t.array.length := by
      by_contra hne
      exact hpresent _ (by omega) (by omega)
        (habsent (lastInArray L t t.array.length + 1) (by omega) (by omega))
    obtain ⟨hgrow, -, hfound, hend⟩ := growInHash_spec (L := L) (t := t) t.array.length
    rw [if_neg (by omega), hfull]
    congr 1
    rcases Nat.lt_trichotomy (growInHash L t t.array.length) n with hlt | heq | hgt
    · rcases hend with hend | hend
      · exact absurd hend (hpresent _ (by omega) (by omega))
      · omega
    · exact heq
    · exact absurd hgap (hfound (n + 1) (by omega) hgt)
  · have hbehind := harray.resolve_left hn
    have heq : lastInArray L t t.array.length = n := by
      rcases Nat.lt_trichotomy (lastInArray L t t.array.length) n with hlt | heq | hgt
      · exact absurd (habsent (lastInArray L t t.array.length + 1) (by omega) (by omega))
          (hpresent _ (by omega) (by omega))
      · exact heq
      · rcases hlast with hzero | hlast
        · omega
        · exact absurd (hbehind _ hgt hle) hlast
    rw [if_pos (by omega), heq]

/-- Where the second loop stops by itself there is a border, else there is none. -/
theorem growInHash_border_iff (hlt : t.array.length ≤ vectorMax 16)
    (hlast : t.array.getLast? ≠ some .nil)
    (hfull : lastInArray L t t.array.length = t.array.length) :
    Border L t (Int64.ofNat (growInHash L t t.array.length)) ↔ GapBelowCap L t := by
  have hmax : vectorMax 16 < 2 ^ 62 := by decide
  obtain ⟨hle, hcap, hpresent, hend⟩ := growInHash_spec (L := L) (t := t) t.array.length
  set m := growInHash L t t.array.length
  have hm : (Int64.ofNat m).toInt = m := toInt_ofNat (by omega)
  have hsucc : Int64.ofNat m + 1 = Int64.ofNat (m + 1) := by
    rw [Int64.ofNat_add]
    rfl
  constructor
  · intro h
    right
    refine ⟨m + 1, by omega, by omega, ?_⟩
    rcases h.absent with hend | habsent
    · omega
    · rwa [hsucc] at habsent
  · rintro (hnil | ⟨k, hk, hkle, hnil⟩)
    · exact absurd hnil hlast
    · refine ⟨by omega, ?_, Or.inr ?_⟩
      · rcases Nat.eq_or_lt_of_le hle with heq | hgrown
        · -- nothing was found in the hash part
          have hstart := (lastInArray_spec (L := L) (t := t) t.array.length).2.1
          rw [hfull, heq] at hstart
          exact hstart.imp (by omega) id
        · exact Or.inr (hpresent m hgrown (Nat.le_refl m))
      · rw [hsucc]
        rcases hend with hend | hend
        · exact hend
        · by_cases hkm : k ≤ m
          · exact absurd hnil (hpresent k hk hkm)
          · obtain rfl : k = m + 1 := by omega
            exact hnil

/--
The length operator gives a border, and the number of elements of a sequence,
exactly when the loop over the hash part is not cut short by its cap.
-/
theorem tableLength_border_iff (ht : t.Reachable L) :
    (Border L t (tableLength L t) ∧
      ∀ n < 2 ^ 63, Sequence L t n → (tableLength L t).toInt = n) ↔
    GapBelowCap L t := by
  have hmax : vectorMax 16 < 2 ^ 62 := by decide
  have hle := ht.array_le
  suffices hborder : Border L t (tableLength L t) ↔ GapBelowCap L t by
    rw [← hborder]
    exact ⟨And.left, fun h => ⟨h, fun n hn hseq => h.eq_count hseq hn⟩⟩
  rcases tableLength_eq (L := L) (t := t) (by omega) with
    ⟨hlast, heq⟩ | ⟨hlast, hfull, heq⟩
  · rw [heq]
    refine ⟨fun _ => Or.inl hlast, fun _ => ?_⟩
    obtain ⟨-, hpresent, habsent⟩ := lastInArray_spec (L := L) (t := t) t.array.length
    have hlt := (lastInArray_lt_iff (L := L) (t := t) (by omega)).mpr hlast
    set n := lastInArray L t t.array.length
    have hn : (Int64.ofNat n).toInt = n := toInt_ofNat (by omega)
    refine ⟨by omega, hpresent.imp (by omega) id, Or.inr ?_⟩
    have hsucc : Int64.ofNat n + 1 = Int64.ofNat (n + 1) := by
      rw [Int64.ofNat_add]
      rfl
    rw [hsucc]
    exact habsent (n + 1) (Nat.lt_succ_self n) hlt
  · rw [heq]
    exact growInHash_border_iff hle hlast hfull

/-! ## Sequences at hand -/

def fillOps (start n : Nat) : List TableOp :=
  (List.range' start n).map fun i => .setInt (Int64.ofNat i) (.boolean true)

theorem fillOps_valid (start n : Nat) : ∀ op ∈ fillOps start n, op.Valid := by
  intro op hop
  obtain ⟨i, -, rfl⟩ := List.mem_map.mp hop
  trivial

theorem path_of_fillOps (n : Nat) : ∀ {start : Nat} {t₀ : Table} {out : List TValue},
    Machine.run (apply L 4) t₀ (fillOps start n) = .ok (t, out) →
      Relation.ReflTransGen (Mutation L) t₀ t := by
  induction n with
  | zero =>
      intro start t₀ out hrun
      obtain ⟨rfl, -⟩ := Prod.mk.inj (Except.ok.inj hrun)
      exact .refl
  | succ n ih =>
      intro start t₀ out hrun
      have hcons : fillOps start (n + 1) =
          .setInt (Int64.ofNat start) (.boolean true) :: fillOps (start + 1) n := by
        simp [fillOps, List.range'_succ]
      rw [hcons, Machine.run, apply] at hrun
      cases hset : setInt L 4 t₀ (Int64.ofNat start) (.boolean true) with
      | error e =>
          rw [hset] at hrun
          cases hrun
      | ok r =>
          simp only [hset, Except.map] at hrun
          cases hrest : Machine.run (apply L 4) r.table (fillOps (start + 1) n) with
          | error e =>
              rw [hrest] at hrun
              cases hrun
          | ok res =>
              rw [hrest] at hrun
              obtain ⟨rfl, -⟩ := Prod.mk.inj (Except.ok.inj hrun)
              exact .head (.setInt hset) (ih hrest)

theorem trace_fillOps (n : Nat) : ∀ (start : Nat) (m : KeyMap), start + n < 2 ^ 63 →
    ∀ k : Nat, (Machine.trace KeyMap.apply m (fillOps start n)).1 (.number (k : Int)) =
      if start ≤ k ∧ k < start + n then .boolean true else m (.number (k : Int)) := by
  induction n with
  | zero =>
      intro start m hbound k
      rw [if_neg (by omega)]
      rfl
  | succ n ih =>
      intro start m hbound k
      have hcons : fillOps start (n + 1) =
          .setInt (Int64.ofNat start) (.boolean true) :: fillOps (start + 1) n := by
        simp [fillOps, List.range'_succ]
      have hstart : (Int64.ofNat start).toInt = start := toInt_ofNat (by omega)
      rw [hcons, Machine.trace, KeyMap.apply]
      simp only [hstart]
      rw [ih (start + 1) _ (by omega) k, Function.update_apply]
      by_cases hk : k = start
      · subst hk
        simp
      · have hne : KeyId.number ((k : Int) : ℚ) ≠ .number ((start : Int) : ℚ) := by
          simpa using hk
        rw [if_neg hne]
        by_cases hlt : start ≤ k ∧ k < start + (n + 1)
        · rw [if_pos hlt, if_pos (by omega)]
        · rw [if_neg hlt, if_neg (by omega)]

theorem exists_filled {n : Nat} (hn : n + 1 < 2 ^ 63) :
    ∃ t : Table, t.Reachable L ∧ t.array.length ≤ 64 ∧ Sequence L t n ∧
      ∀ k, 1 ≤ k → k ≤ n → t.element L k ≠ .nil := by
  have hnew : tableNew 0 0 = .ok { hash := List.replicate 8 {} } := rfl
  obtain ⟨t, hrun, hrep⟩ := Machine.StepRefines.run (apply_refines (le_refl 4))
    (fillOps_valid 1 n) (tableNew_represents (L := L) hnew)
  have hpath := path_of_fillOps n hrun
  have hget : ∀ k : Nat, ∀ i : Int64, i.toInt = k →
      t.get L (.integer i) = if 1 ≤ k ∧ k < 1 + n then .boolean true else .nil := by
    intro k i hi
    rw [hrep.get_eq _ (canonical_integer i).1, keyId, hi,
      trace_fillOps n 1 _ (by omega) k]
  refine ⟨t, ⟨0, 0, _, hnew, hpath⟩, ?_, fun i hi => ?_, fun k hk hkn => ?_⟩
  · exact Machine.invariant_of_path (fun t : Table => t.array.length ≤ 64)
      (fun hle hstep => by have := hstep.array_le; omega) (by decide) hpath
  · rw [hget i.toInt.toNat i (by omega)]
    split
    · simp only [ne_eq, reduceCtorEq, not_false_eq_true, true_iff]
      omega
    · simp only [ne_eq, not_true_eq_false, false_iff]
      omega
  · rw [element, hget k _ (toInt_ofNat (by omega)), if_pos (by omega)]
    simp

/-- The array part holds no more than 64 of the 70 elements, the hash part the others. -/
theorem tableLength_border_filled :
    ∃ t : Table, t.Reachable ⟨fun _ => [], fun _ => 0⟩ ∧ t.array.length ≤ 64 ∧
      Sequence ⟨fun _ => [], fun _ => 0⟩ t 70 ∧
      Border ⟨fun _ => [], fun _ => 0⟩ t (tableLength ⟨fun _ => [], fun _ => 0⟩ t) ∧
      (tableLength ⟨fun _ => [], fun _ => 0⟩ t).toInt = 70 := by
  obtain ⟨t, hreach, harray, hseq, -⟩ :=
    exists_filled (L := ⟨fun _ => [], fun _ => 0⟩) (n := 70) (by omega)
  have habsent : t.element ⟨fun _ => [], fun _ => 0⟩ 71 = .nil :=
    not_not.mp fun h => absurd ((hseq 71 (by decide)).mp h) (by decide)
  have hgap : GapBelowCap ⟨fun _ => [], fun _ => 0⟩ t :=
    Or.inr ⟨71, by omega, by omega, habsent⟩
  obtain ⟨hborder, hcount⟩ := (tableLength_border_iff hreach).mpr hgap
  exact ⟨t, hreach, harray, hseq, hborder, hcount 70 (by decide) hseq⟩

/-- In a list of 10000002 elements the cap stops the search one element short of the end. -/
theorem tableLength_stops_short :
    ∃ t : Table, t.Reachable ⟨fun _ => [], fun _ => 0⟩ ∧
      Sequence ⟨fun _ => [], fun _ => 0⟩ t 10000002 ∧
      tableLength ⟨fun _ => [], fun _ => 0⟩ t = 10000001 ∧
      ¬ Border ⟨fun _ => [], fun _ => 0⟩ t (tableLength ⟨fun _ => [], fun _ => 0⟩ t) := by
  generalize (⟨fun _ => [], fun _ => 0⟩ : InternedStrings) = L
  obtain ⟨t, hreach, harray, hseq, hpresent⟩ := exists_filled (L := L) (n := 10000002) (by omega)
  have hlength : tableLength L t = 10000001 := by
    rcases tableLength_eq (L := L) (t := t) (by omega) with ⟨hlast, -⟩ | ⟨-, -, heq⟩
    · -- the array part holds elements only
      obtain ⟨hle, -, habsent⟩ := lastInArray_spec (L := L) (t := t) t.array.length
      have hlt := (lastInArray_lt_iff (L := L) (t := t) (by omega)).mpr hlast
      exact absurd (habsent t.array.length hlt (Nat.le_refl _))
        (hpresent _ (by omega) (by omega))
    · obtain ⟨-, hcap, -, hend⟩ := growInHash_spec (L := L) (t := t) t.array.length
      have hcount : growInHash L t t.array.length = 10000001 := by
        rcases hend with hend | hend
        · exact absurd hend (hpresent _ (by omega) (by omega))
        · omega
      rw [heq, hcount]
      rfl
  refine ⟨t, hreach, hseq, hlength, fun hborder => ?_⟩
  rw [hlength] at hborder
  rcases hborder.absent with hmax | habsent
  · exact absurd hmax (by decide)
  · exact (hseq 10000002 (by decide)).mpr (by decide) habsent

end Luatier.Table
