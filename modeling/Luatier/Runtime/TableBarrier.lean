import Luatier.Runtime.Table

/-!
# Stores and the write barrier

Whatever a finished store leaves in a table was there before, in the same part
of the table, or went through the write barrier.
-/

namespace Luatier

structure Stored.Barriered (t : Table) (r : Stored) : Prop where
  metatable : r.table.metatable = t.metatable
  weakMode : r.table.weakMode = t.weakMode
  array : ∀ v ∈ r.table.array, v.asGc? = none ∨ v ∈ r.barriers ∨ v ∈ t.array
  key : ∀ n ∈ r.table.hash, n.used = true →
    n.key.asGc? = none ∨ n.key ∈ r.barriers ∨
      ∃ n₀ ∈ t.hash, n₀.used = true ∧ n₀.key = n.key
  value : ∀ n ∈ r.table.hash, n.used = true →
    n.value.asGc? = none ∨ n.value ∈ r.barriers ∨
      ∃ n₀ ∈ t.hash, n₀.used = true ∧ n₀.value = n.value

namespace Stored.Barriered

variable {t : Table} {r : Stored}

theorem refl (t : Table) : Barriered t ⟨t, []⟩ :=
  ⟨rfl, rfl, fun _ h => Or.inr (Or.inr h),
    fun n h hu => Or.inr (Or.inr ⟨n, h, hu, rfl⟩),
    fun n h hu => Or.inr (Or.inr ⟨n, h, hu, rfl⟩)⟩

private theorem widen {v : TValue} {bs bs' : List TValue} {p : Prop}
    (h : v.asGc? = none ∨ v ∈ bs ∨ p) :
    v.asGc? = none ∨ v ∈ bs ++ bs' ∨ p := by
  rcases h with hnone | hb | hold
  · exact Or.inl hnone
  · exact Or.inr (Or.inl (List.mem_append_left _ hb))
  · exact Or.inr (Or.inr hold)

theorem trans {r' : Stored} (h : Barriered t r) (h' : Barriered r.table r') :
    Barriered t { r' with barriers := r.barriers ++ r'.barriers } := by
  refine ⟨h'.metatable.trans h.metatable, h'.weakMode.trans h.weakMode,
    fun v hv => ?_, fun n hn hu => ?_, fun n hn hu => ?_⟩
  · rcases h'.array v hv with hnone | hb | hold
    · exact Or.inl hnone
    · exact Or.inr (Or.inl (List.mem_append_right _ hb))
    · exact widen (h.array v hold)
  · rcases h'.key n hn hu with hnone | hb | ⟨n₁, hn₁, hu₁, heq⟩
    · exact Or.inl hnone
    · exact Or.inr (Or.inl (List.mem_append_right _ hb))
    · rw [← heq]
      exact widen (h.key n₁ hn₁ hu₁)
  · rcases h'.value n hn hu with hnone | hb | ⟨n₁, hn₁, hu₁, heq⟩
    · exact Or.inl hnone
    · exact Or.inr (Or.inl (List.mem_append_right _ hb))
    · rw [← heq]
      exact widen (h.value n₁ hn₁ hu₁)

theorem setArray (h : Barriered t r) {array : List TValue} {version : UInt32}
    {bs : List TValue}
    (harray : ∀ v ∈ array, v.asGc? = none ∨ v ∈ bs ∨ v ∈ r.table.array) :
    Barriered t
      ⟨{ r.table with array, structureVersion := version }, r.barriers ++ bs⟩ := by
  refine ⟨h.metatable, h.weakMode, fun v hv => ?_,
    fun n hn hu => widen (h.key n hn hu), fun n hn hu => widen (h.value n hn hu)⟩
  rcases harray v hv with hnone | hb | hold
  · exact Or.inl hnone
  · exact Or.inr (Or.inl (List.mem_append_right _ hb))
  · exact widen (h.array v hold)

theorem setNode (h : Barriered t r) (slot : Nat) {node : TableNode}
    {version : UInt32} {bs : List TValue}
    (hkey : node.used = true → node.key ∈ bs ∨
      ∃ n ∈ r.table.hash, n.used = true ∧ n.key = node.key)
    (hvalue : node.used = true → node.value.asGc? = none ∨ node.value ∈ bs) :
    Barriered t
      ⟨{ r.table with
          hash := r.table.hash.set slot node
          structureVersion := version }, r.barriers ++ bs⟩ := by
  refine ⟨h.metatable, h.weakMode, fun v hv => widen (h.array v hv),
    fun n hn hu => ?_, fun n hn hu => ?_⟩
  · rcases List.mem_or_eq_of_mem_set hn with hn | rfl
    · exact widen (h.key n hn hu)
    · rcases hkey hu with hb | ⟨n₁, hn₁, hu₁, heq⟩
      · exact Or.inr (Or.inl (List.mem_append_right _ hb))
      · rw [← heq]
        exact widen (h.key n₁ hn₁ hu₁)
  · rcases List.mem_or_eq_of_mem_set hn with hn | rfl
    · exact widen (h.value n hn hu)
    · rcases hvalue hu with hnone | hb
      · exact Or.inl hnone
      · exact Or.inr (Or.inl (List.mem_append_right _ hb))

/-- Flags and unused nodes of the table that a store starts from do not matter. -/
theorem of_eq {t₁ : Table}
    (hmeta : t₁.metatable = t.metatable) (hmode : t₁.weakMode = t.weakMode)
    (harray : t₁.array = t.array)
    (hhash : ∀ n ∈ t₁.hash, n.used = true → n ∈ t.hash)
    (h : Barriered t₁ r) : Barriered t r := by
  refine ⟨h.metatable.trans hmeta, h.weakMode.trans hmode, harray ▸ h.array,
    fun n hn hu => ?_, fun n hn hu => ?_⟩
  · rcases h.key n hn hu with hnone | hb | ⟨n₀, hn₀, hu₀, heq⟩
    · exact Or.inl hnone
    · exact Or.inr (Or.inl hb)
    · exact Or.inr (Or.inr ⟨n₀, hhash n₀ hn₀ hu₀, hu₀, heq⟩)
  · rcases h.value n hn hu with hnone | hb | ⟨n₀, hn₀, hu₀, heq⟩
    · exact Or.inl hnone
    · exact Or.inr (Or.inl hb)
    · exact Or.inr (Or.inr ⟨n₀, hhash n₀ hn₀ hu₀, hu₀, heq⟩)

end Stored.Barriered

namespace Table

open Stored (Barriered)

variable {L : InternedStrings} {t : Table}

theorem asGc?_replicate_nil {n : Nat} {v : TValue}
    (h : v ∈ List.replicate n TValue.nil) : v.asGc? = none := by
  rw [List.eq_of_mem_replicate h]
  rfl

theorem getD_used {hash : List TableNode} {slot : Nat}
    (h : (hash.getD slot {}).used = true) : hash.getD slot {} ∈ hash := by
  rw [List.getD_eq_getElem?_getD] at h ⊢
  cases hn : hash[slot]? with
  | none =>
      rw [hn] at h
      contradiction
  | some n => exact List.mem_of_getElem? hn

theorem mem_set_array {array : List TValue} {j : Nat} {value : TValue} :
    ∀ v ∈ array.set j value, v.asGc? = none ∨ v ∈ [value] ∨ v ∈ array := by
  intro v hv
  rcases List.mem_or_eq_of_mem_set hv with hv | rfl
  · exact Or.inr (Or.inr hv)
  · exact Or.inr (Or.inl (List.mem_singleton_self v))

theorem rawInsert_barriered {r r' : Stored} (h : Barriered t r)
    {key value : TValue} (hr : rawInsert L r key value = .ok r') :
    Barriered t r' := by
  unfold rawInsert at hr
  split at hr
  · cases hr
    exact h
  simp only at hr
  split at hr
  · cases hr
    exact h.setArray mem_set_array
  · split at hr
    · cases hr
      refine h.setNode _ (fun _ => Or.inl ?_) fun _ => Or.inr ?_
      · exact List.mem_cons_self
      · exact List.mem_cons_of_mem _ (List.mem_singleton_self _)
    · rename_i slot _ _
      cases hr
      refine h.setNode slot (fun hu => Or.inr ?_) fun _ => Or.inr ?_
      · exact ⟨_, getD_used hu, hu, rfl⟩
      · exact List.mem_singleton_self _
    · contradiction

theorem reinsertArray_barriered {r r' : Stored} (h : Barriered t r)
    (values : List TValue) {i : Nat}
    (hr : reinsertArray L r i values = .ok r') : Barriered t r' := by
  induction values generalizing r i with
  | nil =>
      cases hr
      exact h
  | cons v values ih =>
      rw [reinsertArray] at hr
      by_cases hv : v.isNil = true
      · simp only [hv, if_true, pure_bind] at hr
        exact ih h hr
      · simp only [hv, Bool.false_eq_true, if_false] at hr
        cases hins : rawInsert L r (.integer (Int64.ofNat (i + 1))) v with
        | error e =>
            rw [hins] at hr
            contradiction
        | ok r₁ =>
            rw [hins] at hr
            exact ih (rawInsert_barriered h hins) hr

theorem reinsertHash_barriered {r r' : Stored} (h : Barriered t r)
    (nodes : List TableNode) (hr : reinsertHash L r nodes = .ok r') :
    Barriered t r' := by
  induction nodes generalizing r with
  | nil =>
      cases hr
      exact h
  | cons n nodes ih =>
      rw [reinsertHash] at hr
      by_cases hn : liveNode n = true
      · simp only [hn, if_true] at hr
        cases hins : rawInsert L r n.key n.value with
        | error e =>
            rw [hins] at hr
            contradiction
        | ok r₁ =>
            rw [hins] at hr
            exact ih (rawInsert_barriered h hins) hr
      · simp only [hn, Bool.false_eq_true, if_false, pure_bind] at hr
        exact ih h hr

theorem rehash_barriered {arrayHint hashHint : Nat} {r : Stored}
    (hr : rehash L t arrayHint hashHint = .ok r) : Barriered t r := by
  unfold rehash at hr
  simp only at hr
  generalize hn : doubleUntil _ _ 8 = n at hr
  generalize hfresh : ({ t with
    array := List.replicate arrayHint .nil
    hash := List.replicate n {}
    structureVersion := t.structureVersion + 1 } : Table) = fresh at hr
  have hunused : ∀ n ∈ fresh.hash, n.used = true → False := by
    intro n hn hu
    rw [← hfresh] at hn
    rw [List.eq_of_mem_replicate hn] at hu
    contradiction
  have hstart : Barriered t ⟨fresh, []⟩ := by
    refine ⟨by rw [← hfresh], by rw [← hfresh], fun v hv => Or.inl ?_,
      fun n hn hu => (hunused n hn hu).elim, fun n hn hu => (hunused n hn hu).elim⟩
    rw [← hfresh] at hv
    exact asGc?_replicate_nil hv
  cases harray : reinsertArray L ⟨fresh, []⟩ 0 t.array with
  | error e =>
      rw [harray] at hr
      contradiction
  | ok r₁ =>
      rw [harray] at hr
      exact reinsertHash_barriered (reinsertArray_barriered hstart _ harray) _ hr

theorem setArray?_barriered {i : Int64} {value : TValue} {r : Stored}
    (hr : t.setArray? i value = some r) : Barriered t r := by
  unfold setArray? at hr
  split at hr
  · cases hr
    exact (Barriered.refl t).setArray mem_set_array
  · split at hr
    · cases hr
      refine (Barriered.refl t).setArray fun v hv => ?_
      rcases mem_set_array v hv with hnone | hb | hv
      · exact Or.inl hnone
      · exact Or.inr (Or.inl hb)
      · rcases List.mem_append.mp hv with hv | hv
        · exact Or.inr (Or.inr hv)
        · exact Or.inl (asGc?_replicate_nil hv)
    · contradiction

theorem fillSlot_barriered (t : Table) (slot : Nat) (lookup value : TValue) :
    Barriered t (t.fillSlot slot lookup value) :=
  (Barriered.refl t).setNode slot (fun _ => Or.inl List.mem_cons_self)
    fun _ => Or.inr (List.mem_cons_of_mem _ (List.mem_singleton_self _))

theorem setHash?_barriered {lookup value : TValue} {r : Stored}
    (hr : t.setHash? L lookup value = some r) : Barriered t r := by
  unfold setHash? at hr
  split at hr
  · split at hr
    · cases hr
      exact .refl t
    · cases hr
      exact fillSlot_barriered t _ lookup value
  · rename_i slot _ _
    by_cases hv : value.isNil = true
    · simp only [hv, if_true] at hr
      cases hr
      refine (Barriered.refl t).setNode slot (fun hu => Or.inr ?_)
        fun _ => Or.inl ?_
      · exact ⟨_, getD_used hu, hu, rfl⟩
      · rw [TValue.isNil_iff.mp hv]
        rfl
    · simp only [hv, Bool.false_eq_true, if_false] at hr
      cases hr
      refine (Barriered.refl t).setNode slot (fun hu => Or.inr ?_)
        fun _ => Or.inr (List.mem_singleton_self value)
      exact ⟨_, getD_used hu, hu, rfl⟩
  · split at hr
    · cases hr
      exact .refl t
    · obtain ⟨slot, -, rfl⟩ := Option.map_eq_some_iff.mp hr
      exact fillSlot_barriered t slot lookup value

theorem set_setInt_barriered (fuel : Nat) :
    (∀ (t : Table) (key value : TValue) (r : Stored),
      set L fuel t key value = .ok r → Barriered t r) ∧
    ∀ (t : Table) (i : Int64) (value : TValue) (r : Stored),
      setInt L fuel t i value = .ok r → Barriered t r := by
  induction fuel with
  | zero =>
      constructor
      · intro t key value r hr
        simp only [set, reduceCtorEq] at hr
      · intro t i value r hr
        simp only [setInt, reduceCtorEq] at hr
  | succ fuel ih =>
      obtain ⟨ihset, ihsetInt⟩ := ih
      constructor
      · intro t key value r hr
        rw [set] at hr
        split at hr
        · contradiction
        split at hr
        · contradiction
        simp only at hr
        generalize ht₁ : (if metamethodLike L key = true then t.clearTmCache
          else t) = t₁ at hr
        have hsame : t₁.metatable = t.metatable ∧ t₁.weakMode = t.weakMode ∧
            t₁.array = t.array ∧ t₁.hash = t.hash := by
          rw [← ht₁]
          split
          · exact ⟨rfl, rfl, rfl, rfl⟩
          · exact ⟨rfl, rfl, rfl, rfl⟩
        obtain ⟨hmeta, hmode, harray, hhash⟩ := hsame
        have hback : ∀ {r}, Barriered t₁ r → Barriered t r :=
          fun h => .of_eq hmeta hmode harray (fun n hn _ => hhash ▸ hn) h
        split at hr
        · exact hback (ihsetInt _ _ _ _ hr)
        split at hr
        · cases hr
          exact hback ((Barriered.refl t₁).setArray mem_set_array)
        generalize ht₂ : (if t₁.hash.isEmpty = true then
          { t₁ with hash := List.replicate 8 {} } else t₁) = t₂ at hr
        have hback₂ : ∀ {r}, Barriered t₂ r → Barriered t r := by
          intro r h
          refine hback (.of_eq ?_ ?_ ?_ (fun n hn hu => ?_) h)
          · rw [← ht₂]
            split <;> rfl
          · rw [← ht₂]
            split <;> rfl
          · rw [← ht₂]
            split <;> rfl
          · rw [← ht₂] at hn
            split at hn
            · rw [List.eq_of_mem_replicate hn] at hu
              contradiction
            · exact hn
        split at hr
        · rename_i r' hr'
          cases hr
          exact hback₂ (setHash?_barriered hr')
        · cases hre : rehash L t₂ t₂.array.length (2 * t₂.hash.length) with
          | error e =>
              rw [hre] at hr
              contradiction
          | ok r₁ =>
              rw [hre] at hr
              cases hset : set L fuel r₁.table key value with
              | error e =>
                  simp only [bind, Except.bind, hset, reduceCtorEq] at hr
              | ok r₂ =>
                  simp only [bind, Except.bind, hset] at hr
                  cases hr
                  exact hback₂ ((rehash_barriered hre).trans
                    (ihset _ _ _ _ hset))
      · intro t i value r hr
        rw [setInt] at hr
        split at hr
        · rename_i r' hr'
          cases hr
          exact setArray?_barriered hr'
        · exact ihset _ _ _ _ hr

theorem set_barriered {fuel : Nat} {key value : TValue} {r : Stored}
    (hr : set L fuel t key value = .ok r) : Barriered t r :=
  (set_setInt_barriered fuel).1 t key value r hr

theorem setInt_barriered {fuel : Nat} {i : Int64} {value : TValue} {r : Stored}
    (hr : setInt L fuel t i value = .ok r) : Barriered t r :=
  (set_setInt_barriered fuel).2 t i value r hr

end Table

end Luatier
