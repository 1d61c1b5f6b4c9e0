import Luatier.Runtime.TableInvariant

/-!
# Tables refine finite maps

Each store is shown to keep the invariant and to change what `get` observes at
one key only.  The results about single stores are then carried over whole
histories, against the map that remembers the value last stored under a key.
-/

namespace Luatier

open Binary64

namespace Table

variable {L : InternedStrings} {t : Table}

/-! ## Probing a well-formed table -/

theorem Wf.valuesEqual_key (wf : t.Wf L) {k : TValue} (hk : Canonical k)
    {i : Nat} (hi : i < t.hash.length) (hused : (t.node i).used = true) :
    valuesEqual (t.node i).key k = true ↔ t.slotView i = .key k := by
  rw [slotView_eq_key]
  by_cases hnil : (t.node i).key = .nil
  · have hkn : k ≠ .nil := hk.1.1
    simp [hnil, valuesEqual_nil_left hkn, hkn.symm]
  · have hcanon := (wf.keys hi (slotView_eq_key.mpr ⟨hused, rfl, hnil⟩)).1
    rw [valuesEqual_iff hcanon hk]
    constructor
    · intro heq
      exact ⟨hused, heq, hk.1.1⟩
    · exact fun h => h.2.1

theorem Wf.passed (wf : t.Wf L) {k : TValue} (hk : Canonical k) {step : Nat}
    (h : Passed t.hash k (t.home L k) step) :
    t.slotView (Probing.probe t.hash.length (t.home L k) step) ≠ .free ∧
      t.slotView (Probing.probe t.hash.length (t.home L k) step) ≠ .key k := by
  obtain ⟨hused, heq⟩ := h
  constructor
  · intro hfree
    have hused' : (t.node
        (Probing.probe t.hash.length (t.home L k) step)).used = true := hused
    rw [slotView_eq_free.mp hfree] at hused'
    contradiction
  · intro hkey
    have := (wf.valuesEqual_key hk (Probing.probe_lt wf.hash_pos _ _) hused).mpr hkey
    have heq' : valuesEqual (t.node
        (Probing.probe t.hash.length (t.home L k) step)).key k = false := heq
    rw [heq'] at this
    contradiction

def SearchResult (t : Table) (L : InternedStrings) (k : TValue) : ProbeEnd → Prop
  | .unused slot firstTomb => ∃ step < t.hash.length,
      slot = Probing.probe t.hash.length (t.home L k) step ∧
        t.slotView slot = .free ∧
        (∀ earlier < step, t.slotView
          (Probing.probe t.hash.length (t.home L k) earlier) ≠ .free) ∧
        (∀ i < t.hash.length, t.slotView i ≠ .key k) ∧
        TombOk t.hash (t.home L k) firstTomb step
  | .found slot _ => slot < t.hash.length ∧ t.slotView slot = .key k
  | .exhausted firstTomb =>
      (∀ i < t.hash.length, t.slotView i ≠ .free ∧ t.slotView i ≠ .key k) ∧
        TombOk t.hash (t.home L k) firstTomb t.hash.length

theorem Wf.search (wf : t.Wf L) {k : TValue} (hk : Canonical k) :
    t.SearchResult L k (probeFor L t.hash k) := by
  have hresult := probeFor_result L t.hash k
  cases hend : probeFor L t.hash k with
  | unused slot firstTomb =>
      rw [hend] at hresult
      obtain ⟨step, hstep, hslot, hunused, hpassed, htomb⟩ := hresult
      have hfree : t.slotView slot = .free := by
        rw [hslot]
        exact slotView_eq_free.mpr hunused
      refine ⟨step, hstep, hslot, hfree,
        fun e he => (wf.passed hk (hpassed e he)).1, ?_, htomb⟩
      intro i hi hkey
      -- the search for a stored key would have stopped at its slot
      obtain ⟨s, hs, -, hstop, hfirst⟩ := wf.probed.find_present hi hkey
      rcases Nat.lt_trichotomy s step with hlt | rfl | hgt
      · have hpass := wf.passed hk (hpassed s hlt)
        exact hstop.elim hpass.1 hpass.2
      · have : slot = i := hslot.trans hs
        rw [this, hkey] at hfree
        contradiction
      · refine hfirst step hgt (Or.inl ?_)
        have : slot = Probing.probe t.hash.length (t.home L k) step := hslot
        rw [← this]
        exact hfree
  | found slot firstTomb =>
      rw [hend] at hresult
      obtain ⟨step, hstep, hslot, hused, heq⟩ := hresult
      have hlt : slot < t.hash.length := by
        rw [hslot]
        exact Probing.probe_lt wf.hash_pos _ _
      refine ⟨hlt, ?_⟩
      rw [hslot] at hlt ⊢
      exact (wf.valuesEqual_key hk hlt hused).mp heq
  | exhausted firstTomb =>
      rw [hend] at hresult
      obtain ⟨hpassed, htomb⟩ := hresult
      refine ⟨fun i hi => ?_, htomb⟩
      obtain ⟨step, hstep, rfl⟩ := Probing.exists_probe (t.home L k) hi
      exact wf.passed hk (hpassed step hstep)

theorem Wf.search_present (wf : t.Wf L) {k : TValue} (hk : Canonical k)
    {i : Nat} (hi : i < t.hash.length) (hkey : t.slotView i = .key k) :
    ∃ firstTomb, probeFor L t.hash k = .found i firstTomb := by
  have hresult := wf.search hk
  cases hend : probeFor L t.hash k with
  | unused slot firstTomb =>
      rw [hend] at hresult
      obtain ⟨-, -, -, -, -, habsent, -⟩ := hresult
      exact absurd hkey (habsent i hi)
  | found slot firstTomb =>
      rw [hend] at hresult
      obtain rfl := wf.probed.unique hresult.1 hi hresult.2 hkey
      exact ⟨firstTomb, rfl⟩
  | exhausted firstTomb =>
      rw [hend] at hresult
      exact absurd hkey (hresult.1 i hi).2

/-! ## Reading -/

theorem get_canonKey (k : TValue) : t.get L (canonKey k) = t.get L k := by
  have hlookup : ((keyAsInteger k).map TValue.integer).getD (canonKey k) =
      ((keyAsInteger k).map TValue.integer).getD k := by
    cases h : keyAsInteger k with
    | some n => rfl
    | none => simp [canonKey_eq_of_keyAsInteger_none h]
  simp only [get, keyAsInteger_canonKey, hlookup]

theorem getInt_eq_get (i : Int64) : t.getInt L i = t.get L (.integer i) := by
  unfold getInt
  cases h : t.arrayIndex? i with
  | none => rfl
  | some j => simp [get, keyAsInteger, h]

theorem get_array {n : Int64} {j : Nat} (h : t.arrayIndex? n = some j) :
    t.get L (.integer n) = t.array.getD j .nil := by
  simp [get, keyAsInteger, h]

theorem Wf.get_present (wf : t.Wf L) {i : Nat} {k : TValue}
    (hi : i < t.hash.length) (hkey : t.slotView i = .key k) :
    t.get L k = (t.node i).value := by
  obtain ⟨hk, hin⟩ := wf.keys hi hkey
  obtain ⟨firstTomb, hend⟩ := wf.search_present hk hi hkey
  have harray : (keyAsInteger k).bind t.arrayIndex? = none := by
    cases h : keyAsInteger k with
    | none => rfl
    | some n => exact (hin n h).1
  have hlookup : ((keyAsInteger k).map TValue.integer).getD k = k := hk.2
  simp only [get, harray, hlookup, hend, node]

theorem Wf.get_absent (wf : t.Wf L) {k : TValue} (hk : Canonical k)
    (harray : (keyAsInteger k).bind t.arrayIndex? = none)
    (habsent : ∀ i < t.hash.length, t.slotView i ≠ .key k) :
    t.get L k = .nil := by
  have hresult := wf.search hk
  have hlookup : ((keyAsInteger k).map TValue.integer).getD k = k := hk.2
  simp only [get, harray, hlookup]
  cases hend : probeFor L t.hash k with
  | unused slot firstTomb => rfl
  | found slot firstTomb =>
      rw [hend] at hresult
      exact absurd hresult.2 (habsent slot hresult.1)
  | exhausted firstTomb => rfl

/-! ## Writing a slot -/

def setNode (t : Table) (slot : Nat) (n : TableNode) : Table :=
  { t with hash := t.hash.set slot n }

theorem node_setNode {slot : Nat} (hslot : slot < t.hash.length)
    (n : TableNode) (i : Nat) :
    (t.setNode slot n).node i = if i = slot then n else t.node i := by
  simp only [node, setNode, List.getD_eq_getElem?_getD, List.getElem?_set]
  by_cases h : slot = i
  · subst h
    simp [hslot]
  · simp [h, Ne.symm h]

theorem slotView_setNode {slot : Nat} (hslot : slot < t.hash.length)
    {k : TValue} (hk : k ≠ .nil) (value : TValue) :
    (t.setNode slot ⟨k, value, true⟩).slotView =
      Function.update t.slotView slot (.key k) := by
  funext i
  by_cases hi : i = slot
  · subst hi
    rw [Function.update_self]
    exact slotView_eq_key.mpr ⟨by rw [node_setNode hslot, if_pos rfl],
      by rw [node_setNode hslot, if_pos rfl], hk⟩
  · rw [Function.update_of_ne hi]
    simp only [slotView, node_setNode hslot, if_neg hi]

theorem Wf.setValue (wf : t.Wf L) {slot : Nat} {k : TValue}
    (hslot : slot < t.hash.length) (hkey : t.slotView slot = .key k)
    (value : TValue) :
    let t' := t.setNode slot { t.node slot with value }
    t'.Wf L ∧ ∀ k', Canonical k' →
      t'.get L k' = if k' = k then value else t.get L k' := by
  intro t'
  obtain ⟨hused, hk, hne⟩ := slotView_eq_key.mp hkey
  have hnode : ∀ i, t'.node i =
      if i = slot then { t.node slot with value } else t.node i :=
    node_setNode hslot _
  have hview : t'.slotView = t.slotView := by
    funext i
    by_cases hi : i = slot
    · subst hi
      simp only [slotView, hnode, if_true]
    · simp only [slotView, hnode, if_neg hi]
  have hlen : t'.hash.length = t.hash.length := List.length_set
  have hhome : t'.home L = t.home L := by
    funext k
    simp only [home, hlen]
  have wf' : t'.Wf L := by
    refine ⟨hlen ▸ wf.hash_pos, wf.array_lt, ?_, ?_, ?_, ?_⟩
    · rw [hlen, hhome, hview]
      exact wf.probed
    · intro i k hi hi'
      rw [hlen] at hi
      rw [hview] at hi'
      exact wf.keys hi hi'
    · intro i hi
      rw [hnode] at hi ⊢
      split at hi
      · rename_i heq
        rw [hk] at hi
        exact absurd hi hne
      · rename_i heq
        rw [if_neg heq]
        exact wf.nil_value i hi
    · intro i hi
      rw [hnode] at hi ⊢
      split at hi
      · rw [hused] at hi
        contradiction
      · rename_i heq
        rw [if_neg heq]
        exact wf.unused i hi
  refine ⟨wf', ?_⟩
  intro k' hk'
  by_cases heq : k' = k
  · subst heq
    rw [if_pos rfl, wf'.get_present (hlen ▸ hslot) (by rw [hview]; exact hkey),
      hnode, if_pos rfl]
  rw [if_neg heq]
  cases harr : (keyAsInteger k').bind t.arrayIndex? with
  | some j =>
      have harr' : (keyAsInteger k').bind t'.arrayIndex? = some j := harr
      simp only [get, harr, harr']
      rfl
  | none =>
      by_cases hpres : ∃ i < t.hash.length, t.slotView i = .key k'
      · obtain ⟨i, hi, hik⟩ := hpres
        have hine : i ≠ slot := by
          rintro rfl
          rw [hkey] at hik
          exact heq (Probing.Slot.key.inj hik).symm
        rw [wf.get_present hi hik,
          wf'.get_present (hlen ▸ hi) (by rw [hview]; exact hik), hnode,
          if_neg hine]
      · rw [wf.get_absent hk' harr fun i hi h => hpres ⟨i, hi, h⟩,
          wf'.get_absent hk' harr fun i hi h =>
            hpres ⟨i, hlen ▸ hi, by rw [← hview]; exact h⟩]

/--
A new key is written to a slot that the search met before any free slot, and
whose old entry, if it had one, was a tombstone.
-/
theorem Wf.addKey (wf : t.Wf L) {step : Nat} {k : TValue} (value : TValue)
    (hk : Canonical k) (hin : t.InHash k)
    (habsent : ∀ i < t.hash.length, t.slotView i ≠ .key k)
    (hstep : step < t.hash.length)
    (hpath : ∀ earlier < step, t.slotView
      (Probing.probe t.hash.length (t.home L k) earlier) ≠ .free)
    (htomb : (t.node
      (Probing.probe t.hash.length (t.home L k) step)).value = .nil) :
    let t' := t.setNode (Probing.probe t.hash.length (t.home L k) step)
      ⟨k, value, true⟩
    t'.Wf L ∧ ∀ k', Canonical k' →
      t'.get L k' = if k' = k then value else t.get L k' := by
  generalize hs : Probing.probe t.hash.length (t.home L k) step = slot at htomb ⊢
  intro t'
  have hslot : slot < t.hash.length := by
    rw [← hs]
    exact Probing.probe_lt wf.hash_pos _ _
  have hnode : ∀ i, t'.node i =
      if i = slot then ⟨k, value, true⟩ else t.node i :=
    node_setNode hslot _
  have hview : t'.slotView = Function.update t.slotView slot (.key k) :=
    slotView_setNode hslot hk.1.1 value
  have hlen : t'.hash.length = t.hash.length := List.length_set
  have hhome : t'.home L = t.home L := by
    funext k
    simp only [home, hlen]
  have hkept : ∀ {i k'}, k' ≠ k → t'.slotView i = .key k' →
      i ≠ slot ∧ t.slotView i = .key k' := by
    intro i k' hne hi
    rw [hview] at hi
    by_cases heq : i = slot
    · subst heq
      rw [Function.update_self] at hi
      exact absurd (Probing.Slot.key.inj hi).symm hne
    · rw [Function.update_of_ne heq] at hi
      exact ⟨heq, hi⟩
  have wf' : t'.Wf L := by
    refine ⟨hlen ▸ wf.hash_pos, wf.array_lt, ?_, ?_, ?_, ?_⟩
    · rw [hlen, hhome, hview, ← hs]
      exact wf.probed.insert hstep habsent hpath
    · intro i k' hi hi'
      by_cases heq : k' = k
      · subst heq
        exact ⟨hk, hin⟩
      · exact wf.keys (hlen ▸ hi) (hkept heq hi').2
    · intro i hi
      rw [hnode] at hi ⊢
      split at hi
      · exact absurd hi hk.1.1
      · rename_i heq
        rw [if_neg heq]
        exact wf.nil_value i hi
    · intro i hi
      rw [hnode] at hi ⊢
      split at hi
      · contradiction
      · rename_i heq
        rw [if_neg heq]
        exact wf.unused i hi
  refine ⟨wf', ?_⟩
  intro k' hk'
  by_cases heq : k' = k
  · subst heq
    have hself : t'.slotView slot = .key k' := by
      rw [hview, Function.update_self]
    rw [if_pos rfl, wf'.get_present (hlen ▸ hslot) hself, hnode, if_pos rfl]
  rw [if_neg heq]
  cases harr : (keyAsInteger k').bind t.arrayIndex? with
  | some j =>
      have harr' : (keyAsInteger k').bind t'.arrayIndex? = some j := harr
      simp only [get, harr, harr']
      rfl
  | none =>
      by_cases hpres : ∃ i < t'.hash.length, t'.slotView i = .key k'
      · obtain ⟨i, hi, hik⟩ := hpres
        obtain ⟨hine, hold⟩ := hkept heq hik
        rw [wf.get_present (hlen ▸ hi) hold, wf'.get_present hi hik, hnode,
          if_neg hine]
      · rw [wf'.get_absent hk' harr fun i hi h => hpres ⟨i, hi, h⟩]
        -- the only key that can have disappeared was a tombstone
        by_cases hpres' : ∃ i < t.hash.length, t.slotView i = .key k'
        · obtain ⟨i, hi, hik⟩ := hpres'
          by_cases hine : i = slot
          · subst hine
            rw [wf.get_present hi hik, htomb]
          · refine absurd ⟨i, hlen ▸ hi, ?_⟩ hpres
            rw [hview, Function.update_of_ne hine]
            exact hik
        · rw [wf.get_absent hk' harr fun i hi h => hpres' ⟨i, hi, h⟩]

/-! ## Writing the array part -/

theorem arrayIndex?_eq_some {n : Int64} {j : Nat} :
    t.arrayIndex? n = some j ↔ n.toInt = j + 1 ∧ j < t.array.length := by
  unfold arrayIndex?
  split
  · rw [Option.some.injEq]
    omega
  · simp only [reduceCtorEq, false_iff]
    omega

theorem arrayIndex?_eq_none {n : Int64} :
    t.arrayIndex? n = none ↔ n.toInt ≤ 0 ∨ t.array.length < n.toInt := by
  unfold arrayIndex?
  split
  · simp only [reduceCtorEq, false_iff]
    omega
  · simp only [true_iff]
    omega

theorem arrayIndex?_congr {t' : Table} (harray : t'.array = t.array) :
    t'.arrayIndex? = t.arrayIndex? := by
  funext n
  simp only [arrayIndex?, harray]

theorem get_congr {t' : Table} (harray : t'.array = t.array)
    (hhash : t'.hash = t.hash) (k : TValue) : t'.get L k = t.get L k := by
  simp only [get, arrayIndex?_congr harray, harray, hhash]

theorem Wf.congr (wf : t.Wf L) {t' : Table} (harray : t'.array = t.array)
    (hhash : t'.hash = t.hash) : t'.Wf L := by
  have hnode : t'.node = t.node := by
    funext i
    simp only [node, hhash]
  have hview : t'.slotView = t.slotView := by
    funext i
    simp only [slotView, hnode]
  have hhome : t'.home L = t.home L := by
    funext k
    simp only [home, hhash]
  refine ⟨hhash ▸ wf.hash_pos, harray ▸ wf.array_lt, ?_, ?_, ?_, ?_⟩
  · rw [hhash, hhome, hview]
    exact wf.probed
  · intro i k hi hk
    rw [hhash] at hi
    rw [hview] at hk
    obtain ⟨hcanon, hin⟩ := wf.keys hi hk
    refine ⟨hcanon, fun n hn => ?_⟩
    rw [arrayIndex?_congr harray]
    exact hin n hn
  · rw [hnode]
    exact wf.nil_value
  · rw [hnode]
    exact wf.unused

theorem Wf.growArray (wf : t.Wf L) (arr : List TValue)
    (hmax : arr.length ≤ max t.array.length 64) :
    ({ t with array := arr } : Table).Wf L := by
  have hlt := wf.array_lt
  refine ⟨wf.hash_pos, by simp only; omega, wf.probed, ?_, wf.nil_value, wf.unused⟩
  intro i k hi hk
  obtain ⟨hcanon, hin⟩ := wf.keys hi hk
  refine ⟨hcanon, fun n hn => ?_⟩
  obtain ⟨hnone, hsmall⟩ := hin n hn
  refine ⟨?_, hsmall⟩
  rw [arrayIndex?_eq_none] at hnone ⊢
  simp only
  omega

structure StoreOk (L : InternedStrings) (t : Table) (key value : TValue)
    (r : Stored) : Prop where
  wf : r.table.Wf L
  get_eq : ∀ k, ValidKey k → r.table.get L k =
    if canonKey k = canonKey key then value else t.get L k

theorem StoreOk.of_canonical {key value : TValue} {r : Stored}
    (wf : r.table.Wf L)
    (h : ∀ k, Canonical k → r.table.get L k =
      if k = canonKey key then value else t.get L k) :
    StoreOk L t key value r := by
  refine ⟨wf, fun k hk => ?_⟩
  rw [← get_canonKey k, h _ (canonKey_canonical hk), get_canonKey]

private theorem get_of_no_index (arr : List TValue) {k : TValue}
    (h : (keyAsInteger k).bind t.arrayIndex? = none)
    (h' : (keyAsInteger k).bind
      ({ t with array := arr } : Table).arrayIndex? = none) :
    ({ t with array := arr } : Table).get L k = t.get L k := by
  simp only [get, h, h']

theorem Canonical.eq_integer {k : TValue} {n : Int64} (hk : Canonical k)
    (h : keyAsInteger k = some n) : k = .integer n := by
  rw [← hk.2, canonKey_eq_of_keyAsInteger_some h]

theorem setArray?_ok (wf : t.Wf L) {i : Int64} {value : TValue} {r : Stored}
    (h : t.setArray? i value = some r) :
    StoreOk L t (.integer i) value r := by
  unfold setArray? at h
  cases hi : t.arrayIndex? i with
  | some j =>
      rw [hi] at h
      obtain rfl := Option.some.inj h
      obtain ⟨hij, hj⟩ := arrayIndex?_eq_some.mp hi
      refine .of_canonical (wf.growArray _ (by simp)) fun k hk => ?_
      rw [canonKey_integer]
      cases hn : keyAsInteger k with
      | none =>
          have hne : k ≠ .integer i := by
            rintro rfl
            simp [keyAsInteger] at hn
          rw [if_neg hne]
          exact get_of_no_index _ (by simp [hn]) (by simp [hn])
      | some n =>
          obtain rfl := hk.eq_integer hn
          cases hnidx : t.arrayIndex? n with
          | none =>
              have hne : n ≠ i := by
                rintro rfl
                rw [hi] at hnidx
                contradiction
              rw [if_neg (by simpa using hne)]
              exact get_of_no_index _ (by simp [hn, hnidx])
                (by simpa [hn, arrayIndex?] using hnidx)
          | some j' =>
              obtain ⟨hnj, hj'⟩ := arrayIndex?_eq_some.mp hnidx
              have hnidx' : ({ t with array := t.array.set j value } :
                  Table).arrayIndex? n = some j' :=
                arrayIndex?_eq_some.mpr ⟨hnj, by simpa using hj'⟩
              rw [get_array hnidx', get_array hnidx]
              by_cases hjj : j' = j
              · subst hjj
                have : n = i := Int64.toInt_inj.mp (by omega)
                simp [this, hj]
              · have : n ≠ i := by
                  rintro rfl
                  omega
                simp [this, List.getD_eq_getElem?_getD,
                  List.getElem?_set_ne (Ne.symm hjj)]
  | none =>
      rw [hi] at h
      simp only at h
      split at h
      · rename_i hsmall
        obtain rfl := Option.some.inj h
        rw [arrayIndex?_eq_none] at hi
        obtain ⟨m, hm⟩ : ∃ m : Nat, i.toInt = m + 1 :=
          ⟨i.toInt.toNat - 1, by omega⟩
        have hmi : i.toInt.toNat = m + 1 := by omega
        simp only [hmi, Nat.add_sub_cancel]
        set arr := (t.array ++
          List.replicate (m + 1 - t.array.length) TValue.nil).set m value
          with harr
        have hlen : arr.length = m + 1 := by
          rw [harr, List.length_set, List.length_append, List.length_replicate]
          omega
        have hwf' := wf.growArray arr (by omega)
        refine .of_canonical (hwf'.congr rfl rfl) fun k hk => ?_
        rw [canonKey_integer]
        cases hn : keyAsInteger k with
        | none =>
            have hne : k ≠ .integer i := by
              rintro rfl
              simp [keyAsInteger] at hn
            rw [if_neg hne]
            exact get_of_no_index _ (by simp [hn]) (by simp [hn])
        | some n =>
            obtain rfl := hk.eq_integer hn
            by_cases hnm : 1 ≤ n.toInt ∧ n.toInt ≤ m + 1
            · have hnidx' : ({ t with
                  array := arr
                  structureVersion := t.structureVersion + 1 } :
                  Table).arrayIndex? n = some (n.toInt.toNat - 1) :=
                arrayIndex?_eq_some.mpr ⟨by omega, by simp only; omega⟩
              rw [get_array hnidx', harr, List.getD_eq_getElem?_getD]
              by_cases heq : n = i
              · subst heq
                rw [if_pos rfl, hmi, Nat.add_sub_cancel,
                  List.getElem?_set_self (by simp; omega)]
                rfl
              · have hne : m ≠ n.toInt.toNat - 1 := by
                  intro h
                  exact heq (Int64.toInt_inj.mp (by omega))
                rw [if_neg (by simpa using heq), List.getElem?_set_ne hne]
                by_cases hold : n.toInt ≤ t.array.length
                · rw [get_array (arrayIndex?_eq_some.mpr
                      ⟨(by omega : n.toInt =
                        ((n.toInt.toNat - 1 : Nat) : Int) + 1), by omega⟩),
                    List.getElem?_append_left (by omega),
                    List.getD_eq_getElem?_getD]
                · have hnone : t.arrayIndex? n = none :=
                    arrayIndex?_eq_none.mpr (by omega)
                  rw [wf.get_absent (canonical_integer n)
                      (by simp [keyAsInteger, hnone]),
                    List.getElem?_append_right (by omega),
                    List.getElem?_replicate, if_pos (by omega)]
                  · rfl
                  intro j hj hkey
                  exact ((wf.keys hj hkey).2 n rfl).2 (by omega)
            · have hne : n ≠ i := by
                rintro rfl
                omega
              rw [if_neg (by simpa using hne)]
              refine get_of_no_index arr ?_ ?_
              · simp only [hn, Option.bind_some, arrayIndex?_eq_none]
                omega
              · simp only [hn, Option.bind_some, arrayIndex?_eq_none]
                omega
      · contradiction

end Table

end Luatier
