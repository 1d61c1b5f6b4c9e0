import Luatier.Gc.ClearedTable

/-!
# Traversal with `next`

`next` finds the place of the key it is given again, in the array part or among
the nodes of the hash part, and goes on from there.  Tombstones keep the places
of the keys behind them.
-/

namespace Luatier

open Binary64

namespace Table

def keyAsNextIndex : TValue → Option Int64
  | .integer n => some n
  | .number w =>
      match decode w with
      | .fin q =>
          if 0 ≤ q ∧ q = ⌊q⌋ ∧ q ≤ roundInt (2 ^ 63 - 1) then
            some (Int64.ofInt (Datum.truncInt64 (.fin q)))
          else none
      | _ => none
  | _ => none

def nextIndex? (asize : Nat) (key : TValue) : Option Nat :=
  (keyAsNextIndex key).bind fun i =>
    if 1 ≤ i.toInt ∧ i.toInt ≤ asize then some i.toInt.toNat else none

def nextArray (i : Nat) : List TValue → Option (TValue × TValue)
  | [] => none
  | v :: rest =>
      if v.isNil then nextArray (i + 1) rest else some (.integer (Int64.ofNat i), v)

def nextHash (asize : Nat) (key : TValue) :
    Bool → List TableNode → Except String (Option (TValue × TValue))
  | seen, [] =>
      if !key.isNil && !seen then .error "invalid key to 'next'" else .ok none
  | seen, n :: rest =>
      if !n.used then nextHash asize key seen rest
      else if (nextIndex? asize n.key).isSome then nextHash asize key seen rest
      else if !seen then nextHash asize key (valuesEqual n.key key) rest
      else if n.value.isNil then nextHash asize key true rest
      else .ok (some (n.key, n.value))

/-- `base_next` on a table; the end of the traversal is `none`. -/
def baseNext (t : Table) (key : TValue) : Except String (Option (TValue × TValue)) :=
  let asize := t.array.length
  let index := nextIndex? asize key
  let found :=
    if key.isNil then nextArray 1 t.array
    else index.bind fun i => nextArray (i + 1) (t.array.drop i)
  match found with
  | some entry => .ok (some entry)
  | none => nextHash asize key (key.isNil || index.isSome) t.hash

variable {L : InternedStrings} {t : Table}

/-! ## Places -/

def At (t : Table) (p : Nat) (k : TValue) : Prop :=
  (p < t.array.length ∧ k = .integer (Int64.ofNat (p + 1))) ∨
    ∃ i < t.hash.length, p = 2 ^ 63 + i ∧ t.slotView i = .key k

theorem toInt_ofNat_succ (wf : t.Wf L) {j : Nat} (hj : j < t.array.length) :
    (Int64.ofNat (j + 1)).toInt = j + 1 := by
  have hlt := wf.array_lt
  rw [← Int64.ofInt_eq_ofNat, Int64.toInt_ofInt_of_le (by omega) (by omega)]
  rfl

theorem arrayIndex?_ofNat_succ (wf : t.Wf L) {j : Nat} (hj : j < t.array.length) :
    t.arrayIndex? (Int64.ofNat (j + 1)) = some j :=
  arrayIndex?_eq_some.mpr ⟨toInt_ofNat_succ wf hj, hj⟩

theorem At.canonical (wf : t.Wf L) {p : Nat} {k : TValue} (h : t.At p k) : Canonical k := by
  rcases h with ⟨-, rfl⟩ | ⟨i, hi, -, hkey⟩
  · exact canonical_integer _
  · exact (wf.keys hi hkey).1

theorem get_ofNat_succ (wf : t.Wf L) {j : Nat} (hj : j < t.array.length) :
    t.get L (.integer (Int64.ofNat (j + 1))) = t.array.getD j .nil :=
  get_array (arrayIndex?_ofNat_succ wf hj)

theorem At.place_unique (wf : t.Wf L) {p p' : Nat} {k : TValue} (h : t.At p k)
    (h' : t.At p' k) : p = p' := by
  have hapart : ∀ {j i : Nat}, j < t.array.length → i < t.hash.length →
      t.slotView i ≠ .key (.integer (Int64.ofNat (j + 1))) := by
    intro j i hj hi hkey
    have hin := ((wf.keys hi hkey).2 _ rfl).1
    rw [arrayIndex?_ofNat_succ wf hj] at hin
    exact nomatch hin
  rcases h with ⟨hp, rfl⟩ | ⟨i, hi, rfl, hkey⟩
  · rcases h' with ⟨hp', heq⟩ | ⟨i, hi, rfl, hkey⟩
    · have hint := congrArg Int64.toInt (TValue.integer.inj heq)
      rw [toInt_ofNat_succ wf hp, toInt_ofNat_succ wf hp'] at hint
      omega
    · exact absurd hkey (hapart hp hi)
  · rcases h' with ⟨hp', rfl⟩ | ⟨i', hi', rfl, hkey'⟩
    · exact absurd hkey (hapart hp' hi)
    · rw [wf.probed.unique hi hi' hkey hkey']

theorem At.key_unique (wf : t.Wf L) {p : Nat} {k k' : TValue} (h : t.At p k)
    (h' : t.At p k') : k = k' := by
  have hlt := wf.array_lt
  rcases h with ⟨hp, rfl⟩ | ⟨i, hi, rfl, hkey⟩
  · rcases h' with ⟨-, rfl⟩ | ⟨i, hi, rfl, -⟩
    · rfl
    · omega
  · rcases h' with ⟨hp', -⟩ | ⟨i', hi', heq, hkey'⟩
    · omega
    · obtain rfl : i = i' := by omega
      rw [hkey] at hkey'
      exact Probing.Slot.key.inj hkey'

theorem exists_at (wf : t.Wf L) {k : TValue} (hk : Canonical k) (hget : t.get L k ≠ .nil) :
    ∃ p, t.At p k := by
  cases harr : (keyAsInteger k).bind t.arrayIndex? with
  | some j =>
      obtain ⟨n, hn, hj⟩ := Option.bind_eq_some_iff.mp harr
      obtain ⟨hint, hlt⟩ := arrayIndex?_eq_some.mp hj
      refine ⟨j, Or.inl ⟨hlt, ?_⟩⟩
      rw [hk.eq_integer hn]
      congr 1
      apply Int64.toInt_inj.mp
      rw [hint, toInt_ofNat_succ wf hlt]
  | none =>
      by_cases hpres : ∃ i < t.hash.length, t.slotView i = .key k
      · obtain ⟨i, hi, hkey⟩ := hpres
        exact ⟨2 ^ 63 + i, Or.inr ⟨i, hi, rfl, hkey⟩⟩
      · exact absurd (wf.get_absent hk harr fun i hi h => hpres ⟨i, hi, h⟩) hget

/-! ## One call -/

def FirstFrom (L : InternedStrings) (t : Table) (bound : Nat) :
    Option (TValue × TValue) → Prop
  | none => ∀ p k, bound ≤ p → t.At p k → t.get L k = .nil
  | some (k, v) => ∃ p, bound ≤ p ∧ t.At p k ∧ t.get L k = v ∧ v ≠ .nil ∧
      ∀ p' k', bound ≤ p' → p' < p → t.At p' k' → t.get L k' = .nil

theorem nextArray_spec (vs : List TValue) (i : Nat) :
    match nextArray i vs with
    | none => ∀ j < vs.length, vs.getD j .nil = .nil
    | some (k, v) => ∃ j < vs.length, k = .integer (Int64.ofNat (i + j)) ∧
        vs.getD j .nil = v ∧ v ≠ .nil ∧ ∀ j' < j, vs.getD j' .nil = .nil := by
  induction vs generalizing i with
  | nil => exact fun j hj => absurd hj (Nat.not_lt_zero j)
  | cons v vs ih =>
      rw [nextArray]
      by_cases hv : v.isNil = true
      · rw [if_pos hv]
        have hnil := TValue.isNil_iff.mp hv
        have hrest := ih (i + 1)
        cases hnext : nextArray (i + 1) vs with
        | none =>
            rw [hnext] at hrest
            intro j hj
            cases j with
            | zero => exact hnil
            | succ j => exact hrest j (Nat.lt_of_succ_lt_succ hj)
        | some entry =>
            rw [hnext] at hrest
            obtain ⟨j, hj, hk, hget, hne, hbefore⟩ := hrest
            refine ⟨j + 1, Nat.succ_lt_succ hj, ?_, hget, hne, fun j' hj' => ?_⟩
            · rw [hk, Nat.add_right_comm, Nat.add_assoc]
            · cases j' with
              | zero => exact hnil
              | succ j' => exact hbefore j' (Nat.lt_of_succ_lt_succ hj')
      · rw [if_neg hv]
        exact ⟨0, Nat.succ_pos _, rfl, rfl, by simpa using hv,
          fun j' hj' => absurd hj' (Nat.not_lt_zero j')⟩

theorem nextIndex?_eq_some (wf : t.Wf L) {k : TValue} (hk : Canonical k) {i : Nat} :
    nextIndex? t.array.length k = some i ↔
      0 < i ∧ i ≤ t.array.length ∧ k = .integer (Int64.ofNat i) := by
  have hint : ∀ n : Int64, nextIndex? t.array.length (.integer n) = some i ↔
      0 < i ∧ i ≤ t.array.length ∧ TValue.integer n = .integer (Int64.ofNat i) := by
    intro n
    simp only [nextIndex?, keyAsNextIndex, Option.bind_some]
    constructor
    · intro h
      split at h
      · rename_i hn
        obtain rfl := Option.some.inj h
        refine ⟨by omega, by omega, ?_⟩
        congr 1
        rw [← Int64.ofInt_eq_ofNat, Int.toNat_of_nonneg (by omega), Int64.ofInt_toInt]
      · cases h
    · rintro ⟨hpos, hle, heq⟩
      obtain ⟨j, rfl⟩ : ∃ j, i = j + 1 := ⟨i - 1, by omega⟩
      have hn := toInt_ofNat_succ wf (Nat.lt_of_succ_le hle)
      rw [TValue.integer.inj heq, hn, if_pos (by omega)]
      congr 1
  cases k with
  | integer n => exact hint n
  | number w =>
      -- an integral float below 2^63 is no canonical key
      obtain ⟨hfloat, hnan⟩ := hk.number
      constructor
      · intro h
        exfalso
        obtain ⟨n, hn, hi⟩ := Option.bind_eq_some_iff.mp h
        simp only [keyAsNextIndex] at hn
        cases hd : decode w with
        | nan => exact hnan hd
        | inf s => rw [hd] at hn; cases hn
        | fin q =>
            rw [hd] at hn
            simp only at hn
            split at hn
            · rename_i hq
              obtain ⟨hnonneg, hfloor, hmax⟩ := hq
              have hbig : ¬ q < 2 ^ 63 := by
                intro hlt
                have hnone : floatToInteger w ≠ none := by
                  unfold floatToInteger
                  rw [hd]
                  simp only
                  rw [if_pos ⟨by linarith, hlt, hfloor.symm⟩]
                  exact Option.some_ne_none _
                exact hnone hfloat
              have htrunc : Datum.truncInt64 (.fin q) = -(2 ^ 63) := by
                rw [Datum.truncInt64, if_pos hnonneg]
                refine if_neg fun hlt => hbig ?_
                rw [hfloor]
                exact_mod_cast hlt.2
              rw [htrunc] at hn
              have hneg : n.toInt = -(2 ^ 63) := by
                rw [← Option.some.inj hn]
                rfl
              rw [hneg, if_neg (by omega)] at hi
              cases hi
            · cases hn
      · rintro ⟨-, -, h⟩
        cases h
  | _ =>
      constructor
      · intro h
        cases h
      · rintro ⟨-, -, h⟩
        cases h

theorem node_eq_getElem {i : Nat} (hi : i < t.hash.length) : t.node i = t.hash[i] := by
  rw [node, List.getD_eq_getElem _ _ hi]

theorem nextIndex?_node (wf : t.Wf L) {i : Nat} (hi : i < t.hash.length)
    (hused : (t.node i).used = true) :
    (nextIndex? t.array.length (t.node i).key).isSome = false := by
  by_cases hnil : (t.node i).key = .nil
  · rw [hnil]
    rfl
  · obtain ⟨hcanon, hin⟩ := wf.keys hi (slotView_eq_key.mpr ⟨hused, rfl, hnil⟩)
    cases hindex : nextIndex? t.array.length (t.node i).key with
    | none => rfl
    | some j =>
        obtain ⟨hpos, hle, hkey⟩ := (nextIndex?_eq_some wf hcanon).mp hindex
        obtain ⟨j, rfl⟩ : ∃ j', j = j' + 1 := ⟨j - 1, by omega⟩
        have hnone := (hin (Int64.ofNat (j + 1)) (by rw [hkey]; rfl)).1
        rw [arrayIndex?_ofNat_succ wf (Nat.lt_of_succ_le hle)] at hnone
        exact nomatch hnone

theorem nextHash_seen (wf : t.Wf L) (key : TValue) (n : Nat) : ∀ i, i + n = t.hash.length →
    ∃ r, nextHash t.array.length key true (t.hash.drop i) = .ok r ∧
      FirstFrom L t (2 ^ 63 + i) r := by
  have hlt := wf.array_lt
  induction n with
  | zero =>
      intro i hi
      refine ⟨none, ?_, ?_⟩
      · rw [List.drop_eq_nil_of_le (by omega), nextHash, Bool.not_true, Bool.and_false,
          if_neg Bool.false_ne_true]
      · rintro p k hp (⟨hlow, -⟩ | ⟨j, hj, rfl, -⟩) <;> omega
  | succ n ih =>
      intro i hi
      have hi' : i < t.hash.length := by omega
      obtain ⟨r, hr, hfirst⟩ := ih (i + 1) (by omega)
      rw [List.drop_eq_getElem_cons hi', ← node_eq_getElem hi', nextHash]
      -- a node that is passed over holds nothing
      have hpass : (∀ k, t.slotView i = .key k → (t.node i).value = .nil) →
          FirstFrom L t (2 ^ 63 + i) r := by
        intro hempty
        have hhere : ∀ p k, 2 ^ 63 + i ≤ p → ¬ 2 ^ 63 + (i + 1) ≤ p → t.At p k →
            t.get L k = .nil := by
          rintro p k hp hnext (⟨hlow, -⟩ | ⟨j, hj, rfl, hkey⟩)
          · omega
          · obtain rfl : j = i := by omega
            rw [wf.get_present hj hkey]
            exact hempty k hkey
        cases r with
        | none =>
            intro p k hp hat
            by_cases hnext : 2 ^ 63 + (i + 1) ≤ p
            · exact hfirst p k hnext hat
            · exact hhere p k hp hnext hat
        | some entry =>
            obtain ⟨p, hp, hat, hget, hne, hbefore⟩ := hfirst
            refine ⟨p, by omega, hat, hget, hne, fun p' k' hp' hlt' hat' => ?_⟩
            by_cases hnext : 2 ^ 63 + (i + 1) ≤ p'
            · exact hbefore p' k' hnext hlt' hat'
            · exact hhere p' k' hp' hnext hat'
      by_cases hused : (t.node i).used = true
      · simp only [hused, Bool.not_true, Bool.false_eq_true, if_false,
          nextIndex?_node wf hi' hused]
        by_cases hv : (t.node i).value.isNil = true
        · rw [if_pos hv]
          exact ⟨r, hr, hpass fun _ _ => TValue.isNil_iff.mp hv⟩
        · rw [if_neg hv]
          have hvalue : (t.node i).value ≠ .nil := by simpa using hv
          have hview : t.slotView i = .key (t.node i).key :=
            slotView_eq_key.mpr ⟨hused, rfl, fun hnil => hvalue (wf.nil_value i hnil)⟩
          refine ⟨_, rfl, 2 ^ 63 + i, Nat.le_refl _, Or.inr ⟨i, hi', rfl, hview⟩,
            wf.get_present hi' hview, hvalue, fun p' k' hp' hlt' _ => ?_⟩
          omega
      · simp only [hused, Bool.not_false, if_true]
        exact ⟨r, hr, hpass fun k hk => absurd (slotView_eq_key.mp hk).1 hused⟩

theorem nextHash_find (wf : t.Wf L) {key : TValue} (hkey : Canonical key) {slot : Nat}
    (hslot : slot < t.hash.length) (hview : t.slotView slot = .key key) (n : Nat) :
    ∀ i, i + n = slot → nextHash t.array.length key false (t.hash.drop i) =
      nextHash t.array.length key true (t.hash.drop (slot + 1)) := by
  induction n with
  | zero =>
      intro i hi
      obtain rfl : i = slot := hi
      have hused := (slotView_eq_key.mp hview).1
      rw [List.drop_eq_getElem_cons hslot, ← node_eq_getElem hslot, nextHash]
      simp only [hused, Bool.not_true, Bool.false_eq_true, if_false, Bool.not_false, if_true,
        nextIndex?_node wf hslot hused, (wf.valuesEqual_key hkey hslot hused).mpr hview]
  | succ n ih =>
      intro i hi
      have hi' : i < t.hash.length := by omega
      have hrest := ih (i + 1) (by omega)
      rw [List.drop_eq_getElem_cons hi', ← node_eq_getElem hi', nextHash]
      by_cases hused : (t.node i).used = true
      · have hother : valuesEqual (t.node i).key key = false := by
          by_contra heq
          have hview' := (wf.valuesEqual_key hkey hi' hused).mp
            (Bool.eq_true_of_not_eq_false heq)
          have := wf.probed.unique hi' hslot hview' hview
          omega
        simp only [hused, Bool.not_true, Bool.false_eq_true, if_false, Bool.not_false, if_true,
          nextIndex?_node wf hi' hused, hother]
        exact hrest
      · simp only [hused, Bool.not_false, if_true]
        exact hrest

def Behind (t : Table) (key : TValue) (bound : Nat) : Prop :=
  (key = .nil ∧ bound = 0) ∨ ∃ p, t.At p key ∧ bound = p + 1

theorem firstFrom_array (wf : t.Wf L) {i : Nat} (hi : i ≤ t.array.length) (key : TValue) :
    ∃ r, (match nextArray (i + 1) (t.array.drop i) with
        | some entry => Except.ok (some entry)
        | none => nextHash t.array.length key true t.hash) = .ok r ∧
      FirstFrom L t i r := by
  have hlt := wf.array_lt
  have hget : ∀ j, (t.array.drop i).getD j .nil = t.array.getD (i + j) .nil := by
    intro j
    simp only [List.getD_eq_getElem?_getD, List.getElem?_drop]
  have hspec := nextArray_spec (t.array.drop i) (i + 1)
  cases hnext : nextArray (i + 1) (t.array.drop i) with
  | some entry =>
      rw [hnext] at hspec
      obtain ⟨j, hj, hk, hv, hne, hbefore⟩ := hspec
      rw [List.length_drop] at hj
      refine ⟨some entry, rfl, i + j, Nat.le_add_right .., Or.inl ⟨by omega, ?_⟩, ?_, hne, ?_⟩
      · rw [hk, Nat.add_right_comm]
      · rw [hk, Nat.add_right_comm, get_ofNat_succ wf (by omega), ← hget, hv]
      · rintro p' k' hp' hlt' (⟨hp, rfl⟩ | ⟨s, hs, rfl, -⟩)
        · rw [get_ofNat_succ wf hp]
          have hnil := hbefore (p' - i) (by omega)
          rwa [hget, Nat.add_sub_cancel' hp'] at hnil
        · omega
  | none =>
      rw [hnext] at hspec
      obtain ⟨r, hr, hfirst⟩ := nextHash_seen wf key t.hash.length 0 (Nat.zero_add _)
      have hlow : ∀ p k, i ≤ p → p < 2 ^ 63 → t.At p k → t.get L k = .nil := by
        rintro p k hp hhigh (⟨hplt, rfl⟩ | ⟨s, hs, rfl, -⟩)
        · rw [get_ofNat_succ wf hplt]
          have hnil := hspec (p - i) (by rw [List.length_drop]; omega)
          rwa [hget, Nat.add_sub_cancel' hp] at hnil
        · omega
      refine ⟨r, hr, ?_⟩
      cases r with
      | none =>
          intro p k hp hat
          by_cases hhigh : p < 2 ^ 63
          · exact hlow p k hp hhigh hat
          · exact hfirst p k (by omega) hat
      | some entry =>
          obtain ⟨p, hp, hat, hv, hne, hbefore⟩ := hfirst
          refine ⟨p, by omega, hat, hv, hne, fun p' k' hp' hlt' hat' => ?_⟩
          by_cases hhigh : p' < 2 ^ 63
          · exact hlow p' k' hp' hhigh hat'
          · exact hbefore p' k' (by omega) hlt' hat'

theorem baseNext_spec (wf : t.Wf L) {key : TValue} {bound : Nat} (h : t.Behind key bound) :
    ∃ r, t.baseNext key = .ok r ∧ FirstFrom L t bound r := by
  have hlt := wf.array_lt
  rcases h with ⟨rfl, rfl⟩ | ⟨p, hat, rfl⟩
  · exact firstFrom_array wf (Nat.zero_le _) .nil
  · have hcanon := hat.canonical wf
    have hkey : key.isNil = false := by simpa using hcanon.1.1
    unfold baseNext
    simp only [hkey, Bool.false_eq_true, if_false, Bool.false_or]
    rcases hat with ⟨hp, hk⟩ | ⟨slot, hslot, rfl, hview⟩
    · have hindex : nextIndex? t.array.length key = some (p + 1) :=
        (nextIndex?_eq_some wf hcanon).mpr ⟨Nat.succ_pos p, hp, hk⟩
      simp only [hindex, Option.bind_some, Option.isSome_some]
      exact firstFrom_array wf hp key
    · have hindex : nextIndex? t.array.length key = none := by
        have hused := (slotView_eq_key.mp hview).1
        have hnone := nextIndex?_node wf hslot hused
        rw [(slotView_eq_key.mp hview).2.1] at hnone
        exact Option.isNone_iff_eq_none.mp (Option.isSome_eq_false_iff.mp hnone)
      simp only [hindex, Option.bind_none, Option.isSome_none]
      have hfind := nextHash_find wf hcanon hslot hview slot 0 (Nat.zero_add _)
      rw [List.drop_zero] at hfind
      rw [hfind]
      exact nextHash_seen wf key (t.hash.length - (slot + 1)) (slot + 1) (by omega)

end Table

end Luatier
