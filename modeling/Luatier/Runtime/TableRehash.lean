import Luatier.Runtime.TableRefinement

/-!
# Rehashing

A rehash copies the array part and reinserts the live nodes into a fresh hash
part that is larger than their number.  Every insertion therefore finds an
unused slot, and the entries that `get` observes are the same afterwards.
-/

namespace Luatier

namespace Table

variable {L : InternedStrings} {t : Table}

def usedCount (t : Table) : Nat := t.hash.countP (·.used)

theorem le_doubleUntil (target fuel n : Nat) (hn : 0 < n)
    (h : target ≤ n + fuel) : target ≤ doubleUntil target fuel n := by
  induction fuel generalizing n with
  | zero => simpa [doubleUntil] using h
  | succ fuel ih =>
      rw [doubleUntil]
      split
      · exact ih (2 * n) (by omega) (by omega)
      · omega

theorem doubleUntil_pos (target fuel n : Nat) (hn : 0 < n) :
    0 < doubleUntil target fuel n := by
  induction fuel generalizing n with
  | zero => exact hn
  | succ fuel ih =>
      rw [doubleUntil]
      split
      · exact ih (2 * n) (by omega)
      · exact hn

theorem Wf.empty {size : Nat} (hsize : 0 < size)
    (harray : t.array.length < 2 ^ 63)
    (hhash : t.hash = List.replicate size {}) : t.Wf L := by
  have hnode : ∀ i, t.node i = {} := by
    intro i
    simp only [node, hhash, List.getD_eq_getElem?_getD, List.getElem?_replicate]
    split <;> rfl
  have hview : t.slotView = fun _ => .free := by
    funext i
    exact slotView_eq_free.mpr (by rw [hnode])
  refine ⟨by simpa [hhash] using hsize, harray, ?_, ?_, ?_, ?_⟩
  · rw [hview]
    exact Probing.Probed.empty _ _
  · intro i k _ hk
    rw [hview] at hk
    contradiction
  · intro i _
    rw [hnode]
  · intro i _
    rw [hnode]

theorem exists_unused (h : t.usedCount < t.hash.length) :
    ∃ i < t.hash.length, t.slotView i = .free := by
  have hall : ¬ ∀ n ∈ t.hash, n.used = true := by
    intro hall
    rw [usedCount, List.countP_eq_length.mpr hall] at h
    omega
  push Not at hall
  obtain ⟨n, hn, hused⟩ := hall
  obtain ⟨i, hi, rfl⟩ := List.mem_iff_getElem.mp hn
  refine ⟨i, hi, slotView_eq_free.mpr ?_⟩
  simpa [node, hi] using hused

theorem usedCount_setNode_le (slot : Nat) (n : TableNode) :
    (t.setNode slot n).usedCount ≤ t.usedCount + 1 := by
  simp only [usedCount, setNode]
  by_cases hslot : slot < t.hash.length
  · rw [List.countP_set hslot]
    split <;> split <;> omega
  · rw [List.set_eq_of_length_le (by omega)]
    omega

theorem rawInsert_ok {r : Stored} {k value : TValue} (wf : r.table.Wf L)
    (hk : Canonical k) (hin : r.table.InHash k) (hvalue : value ≠ .nil)
    (habsent : ∀ i < r.table.hash.length, r.table.slotView i ≠ .key k)
    (hroom : r.table.usedCount < r.table.hash.length) :
    ∃ r', rawInsert L r k value = .ok r' ∧ r'.table.Wf L ∧
      r'.table.array = r.table.array ∧
      r'.table.hash.length = r.table.hash.length ∧
      r'.table.usedCount ≤ r.table.usedCount + 1 ∧
      (∀ {i k'}, r'.table.slotView i = .key k' →
        k' = k ∨ r.table.slotView i = .key k') ∧
      ∀ k', Canonical k' → r'.table.get L k' =
        if k' = k then value else r.table.get L k' := by
  have harray : (keyAsInteger k).bind r.table.arrayIndex? = none := by
    cases h : keyAsInteger k with
    | none => rfl
    | some n => exact (hin n h).1
  have hlookup : ((keyAsInteger k).map TValue.integer).getD k = k := hk.2
  have hnil : value.isNil = false := by simpa using hvalue
  have hsearch := wf.search hk
  simp only [rawInsert, hnil, Bool.false_eq_true, if_false, harray, hlookup]
  cases hend : probeFor L r.table.hash k with
  | unused slot firstTomb =>
      rw [hend] at hsearch
      obtain ⟨step, hstep, rfl, hfree, hpath, -, -⟩ := hsearch
      have hnilv := wf.nil_value _ (wf.unused _ (slotView_eq_free.mp hfree))
      obtain ⟨wf', hget⟩ := wf.addKey value hk hin habsent hstep
        hpath hnilv
      refine ⟨_, rfl, wf', rfl, List.length_set, usedCount_setNode_le _ _, ?_,
        hget⟩
      intro i k' hi
      have hview := slotView_setNode
        (Probing.probe_lt wf.hash_pos (r.table.home L k) step) hk.1.1 value
      rw [setNode] at hview
      simp only [hview] at hi
      by_cases heq : i = Probing.probe r.table.hash.length (r.table.home L k) step
      · subst heq
        rw [Function.update_self] at hi
        exact Or.inl (Probing.Slot.key.inj hi).symm
      · rw [Function.update_of_ne heq] at hi
        exact Or.inr hi
  | found slot firstTomb =>
      rw [hend] at hsearch
      exact absurd hsearch.2 (habsent slot hsearch.1)
  | exhausted firstTomb =>
      rw [hend] at hsearch
      obtain ⟨i, hi, hfree⟩ := exists_unused hroom
      exact absurd hfree (hsearch.1 i hi).1

theorem reinsertArray_ok (rest : List TValue) (r : Stored) (i : Nat)
    (hlen : r.table.array.length = i + rest.length)
    (hlt : i + rest.length < 2 ^ 63)
    (hnil : ∀ j, i ≤ j → r.table.array.getD j .nil = .nil) :
    ∃ barriers, reinsertArray L r i rest =
      .ok ⟨{ r.table with array := r.table.array.take i ++ rest }, barriers⟩ := by
  induction rest generalizing r i with
  | nil =>
      refine ⟨r.barriers, ?_⟩
      simp only [reinsertArray, List.append_nil]
      rw [List.take_of_length_le (by simp at hlen; omega)]
  | cons v rest ih =>
      simp only [List.length_cons] at hlen hlt
      have hi : i < r.table.array.length := by omega
      by_cases hv : v = .nil
      · obtain ⟨barriers, hok⟩ := ih r (i + 1) (by omega) (by omega)
          (fun j hj => hnil j (by omega))
        refine ⟨barriers, ?_⟩
        have hval : r.table.array[i] = v := by
          have := hnil i (le_refl i)
          rw [List.getD_eq_getElem?_getD, List.getElem?_eq_getElem hi] at this
          rw [hv]
          exact this
        have hnilv : v.isNil = true := by simpa using hv
        simp only [reinsertArray, hnilv, if_true]
        rw [List.take_succ_eq_append_getElem hi, hval, List.append_assoc,
          List.singleton_append] at hok
        exact hok
      · have hnilv : v.isNil = false := by simpa using hv
        have hint : (Int64.ofNat (i + 1)).toInt = i + 1 := by
          rw [Int64.toInt_ofNat_of_lt (by omega)]
          omega
        have hidx : r.table.arrayIndex? (Int64.ofNat (i + 1)) = some i :=
          arrayIndex?_eq_some.mpr ⟨hint, hi⟩
        have hraw : rawInsert L r (.integer (Int64.ofNat (i + 1))) v =
            .ok ⟨{ r.table with array := r.table.array.set i v },
              r.barriers ++ [v]⟩ := by
          simp only [rawInsert, hnilv, Bool.false_eq_true, if_false,
            keyAsInteger, Option.bind_some, hidx]
        obtain ⟨barriers, hok⟩ := ih
          ⟨{ r.table with array := r.table.array.set i v }, r.barriers ++ [v]⟩
          (i + 1) (by simp only [List.length_set]; omega) (by omega) (by
            intro j hj
            have := hnil j (by omega)
            rw [List.getD_eq_getElem?_getD] at this ⊢
            rwa [List.getElem?_set_ne (by omega)])
        refine ⟨barriers, ?_⟩
        simp only [reinsertArray, hnilv, Bool.false_eq_true, if_false, hraw]
        have htake : (r.table.array.set i v).take (i + 1) ++ rest =
            r.table.array.take i ++ v :: rest := by
          rw [List.take_succ_eq_append_getElem (by simpa using hi),
            List.getElem_set_self, List.take_set_of_le (le_refl i),
            List.append_assoc, List.singleton_append]
        rw [htake] at hok
        exact hok

theorem reinsertHash_ok (nodes : List TableNode) (r : Stored)
    (wf : r.table.Wf L)
    (hkeys : ∀ n ∈ nodes, liveNode n = true →
      Canonical n.key ∧ r.table.InHash n.key ∧
        ∀ i < r.table.hash.length, r.table.slotView i ≠ .key n.key)
    (hdistinct : (nodes.filter liveNode).Pairwise fun n n' => n.key ≠ n'.key)
    (hroom : r.table.usedCount + nodes.countP liveNode < r.table.hash.length) :
    ∃ r', reinsertHash L r nodes = .ok r' ∧ r'.table.Wf L ∧
      r'.table.usedCount < r'.table.hash.length ∧
      ∀ k, Canonical k →
        (∀ n ∈ nodes, liveNode n = true → n.key = k →
          r'.table.get L k = n.value) ∧
        ((∀ n ∈ nodes, liveNode n = true → n.key ≠ k) →
          r'.table.get L k = r.table.get L k) := by
  induction nodes generalizing r with
  | nil => exact ⟨r, rfl, wf, by simpa using hroom, by simp⟩
  | cons n nodes ih =>
      cases hlive : liveNode n with
      | false =>
          simp only [List.filter_cons, hlive, Bool.false_eq_true, if_false]
            at hdistinct
          simp only [List.countP_cons, hlive, Bool.false_eq_true, if_false,
            Nat.add_zero] at hroom
          obtain ⟨r', hok, wf', hroom', hget⟩ := ih r wf
            (fun m hm => hkeys m (List.mem_cons_of_mem _ hm)) hdistinct hroom
          refine ⟨r', by simpa [reinsertHash, hlive] using hok, wf', hroom', ?_⟩
          intro k hk
          simpa [hlive] using hget k hk
      | true =>
          simp only [List.filter_cons, hlive, if_true, List.pairwise_cons]
            at hdistinct
          simp only [List.countP_cons, hlive, if_true] at hroom
          obtain ⟨hcanon, hin, habsent⟩ := hkeys n (by simp) hlive
          have hvalue : n.value ≠ .nil := by
            simp only [liveNode, Bool.and_eq_true, Bool.not_eq_true'] at hlive
            simpa using hlive.2
          obtain ⟨r₁, hraw, wf₁, harr₁, hlen₁, hused₁, hview₁, hget₁⟩ :=
            rawInsert_ok wf hcanon hin hvalue habsent (by omega)
          have hother : ∀ m ∈ nodes, liveNode m = true → m.key ≠ n.key :=
            fun m hm hl =>
              (hdistinct.1 m (List.mem_filter.mpr ⟨hm, hl⟩)).symm
          have hkeys₁ : ∀ m ∈ nodes, liveNode m = true →
              Canonical m.key ∧ r₁.table.InHash m.key ∧
                ∀ i < r₁.table.hash.length,
                  r₁.table.slotView i ≠ .key m.key := by
            intro m hm hl
            obtain ⟨hcm, hinm, habsm⟩ := hkeys m (List.mem_cons_of_mem _ hm) hl
            refine ⟨hcm, ?_, ?_⟩
            · intro v hv
              rw [arrayIndex?_congr harr₁]
              exact hinm v hv
            · intro i hi hkey
              rcases hview₁ hkey with heq | hold
              · exact hother m hm hl heq
              · exact habsm i (hlen₁ ▸ hi) hold
          obtain ⟨r', hok, wf', hroom', hget⟩ :=
            ih r₁ wf₁ hkeys₁ hdistinct.2 (by omega)
          refine ⟨r', ?_, wf', hroom', ?_⟩
          · simp only [reinsertHash, hlive, if_true, hraw]
            exact hok
          intro k hk
          obtain ⟨hmem, hrest⟩ := hget k hk
          constructor
          · intro m hm hl hmk
            rcases List.mem_cons.mp hm with rfl | hm
            · subst hmk
              rw [hrest hother, hget₁ _ hcanon, if_pos rfl]
            · exact hmem m hm hl hmk
          · intro hno
            rw [hrest fun m hm => hno m (List.mem_cons_of_mem _ hm),
              hget₁ k hk, if_neg (hno n (by simp) hlive).symm]

theorem rehash_ok (wf : t.Wf L) (hashHint : Nat) :
    ∃ r, rehash L t t.array.length hashHint = .ok r ∧ r.table.Wf L ∧
      r.table.usedCount < r.table.hash.length ∧
      ∀ k, Canonical k → r.table.get L k = t.get L k := by
  set nitems := t.array.countP (!·.isNil) + t.hash.countP liveNode with hn
  set target := max hashHint (nitems + 1) with htarget
  set size := doubleUntil target target 8 with hsize
  have hbig : target ≤ size := le_doubleUntil _ _ _ (by decide) (by omega)
  set fresh : Table :=
    { t with
      array := List.replicate t.array.length .nil
      hash := List.replicate size {}
      structureVersion := t.structureVersion + 1 } with hfresh
  obtain ⟨barriers, harray⟩ := reinsertArray_ok (L := L) t.array ⟨fresh, []⟩ 0
    (by simp [hfresh]) (by have := wf.array_lt; omega) (by
      intro j _
      simp only [hfresh, List.getD_eq_getElem?_getD, List.getElem?_replicate]
      split <;> rfl)
  simp only [List.take_zero, List.nil_append] at harray
  set copied : Table := { fresh with array := t.array } with hcopied
  have hview : ∀ i, copied.slotView i = .free := by
    intro i
    rw [slotView_eq_free]
    simp only [node, hcopied, hfresh, List.getD_eq_getElem?_getD,
      List.getElem?_replicate]
    split <;> rfl
  have wfc : copied.Wf L :=
    Wf.empty (by omega : 0 < size) wf.array_lt rfl
  have hlen : copied.hash.length = size := by simp [hcopied, hfresh]
  have hcount : copied.usedCount = 0 := by
    simp [usedCount, hcopied, hfresh, List.countP_replicate]
  have hslot : ∀ n ∈ t.hash, liveNode n = true →
      ∃ i < t.hash.length, t.node i = n ∧ t.slotView i = .key n.key := by
    intro n hmem hlive
    obtain ⟨i, hi, rfl⟩ := List.mem_iff_getElem.mp hmem
    have hnode : t.node i = t.hash[i] := by
      simp [node, hi]
    simp only [liveNode, Bool.and_eq_true, Bool.not_eq_true'] at hlive
    refine ⟨i, hi, hnode, slotView_eq_key.mpr ⟨hnode ▸ hlive.1, by rw [hnode], ?_⟩⟩
    intro hkey
    have := wf.nil_value i (by rw [hnode]; exact hkey)
    rw [hnode] at this
    simp [this] at hlive
  have hdistinct : (t.hash.filter liveNode).Pairwise
      fun n n' => n.key ≠ n'.key := by
    rw [List.pairwise_filter, List.pairwise_iff_getElem]
    intro i j hi hj hij hlivei hlivej hkey
    have hof : ∀ {a} (ha : a < t.hash.length), liveNode t.hash[a] = true →
        t.slotView a = .key t.hash[a].key := by
      intro a ha hlive
      obtain ⟨b, hb, hnode, hview⟩ := hslot _ (List.getElem_mem ha) hlive
      have hnode' : t.node a = t.node b := by
        rw [hnode]
        simp [node, ha]
      rw [slotView_eq_key] at hview ⊢
      rwa [hnode']
    have hki := hof hi hlivei
    rw [hkey] at hki
    have := wf.probed.unique hi hj hki (hof hj hlivej)
    omega
  obtain ⟨r, hhash, wfr, hroom, hget⟩ := reinsertHash_ok (L := L) t.hash
    ⟨copied, barriers⟩ wfc (by
      intro n hmem hlive
      obtain ⟨i, hi, -, hkey⟩ := hslot n hmem hlive
      obtain ⟨hcanon, hin⟩ := wf.keys hi hkey
      refine ⟨hcanon, ?_, ?_⟩
      · intro v hv
        have harr : copied.arrayIndex? v = t.arrayIndex? v := rfl
        exact harr ▸ hin v hv
      · intro j _ hj
        rw [hview] at hj
        contradiction) hdistinct (by simp only; omega)
  refine ⟨r, ?_, wfr, hroom, ?_⟩
  · simp only [rehash]
    rw [← hn, ← htarget, ← hsize, ← hfresh, harray]
    exact hhash
  intro k hk
  obtain ⟨hmem, hrest⟩ := hget k hk
  cases harr : (keyAsInteger k).bind t.arrayIndex? with
  | some j =>
      have hno : ∀ n ∈ t.hash, liveNode n = true → n.key ≠ k := by
        rintro n hn hlive rfl
        obtain ⟨i, hi, -, hkey⟩ := hslot n hn hlive
        obtain ⟨v, hv, hvj⟩ := Option.bind_eq_some_iff.mp harr
        rw [((wf.keys hi hkey).2 v hv).1] at hvj
        contradiction
      have harr' : (keyAsInteger k).bind copied.arrayIndex? = some j := harr
      rw [hrest hno]
      simp only [get, harr, harr']
      rfl
  | none =>
      by_cases hlive : ∃ n ∈ t.hash, liveNode n = true ∧ n.key = k
      · obtain ⟨n, hn, hl, rfl⟩ := hlive
        obtain ⟨i, hi, hnode, hkey⟩ := hslot n hn hl
        rw [hmem n hn hl rfl, wf.get_present hi hkey, hnode]
      · rw [hrest fun n hn hl hk => hlive ⟨n, hn, hl, hk⟩,
          wfc.get_absent hk harr fun i _ hi => by
            rw [hview] at hi
            contradiction]
        -- a key left behind was held with a nil value only
        by_cases hpres : ∃ i < t.hash.length, t.slotView i = .key k
        · obtain ⟨i, hi, hkey⟩ := hpres
          rw [wf.get_present hi hkey]
          by_contra hne
          obtain ⟨hused, hkeyi, -⟩ := slotView_eq_key.mp hkey
          refine hlive ⟨t.node i, ?_, ?_, hkeyi⟩
          · simp [node, hi]
          · simp only [liveNode, hused, Bool.true_and, Bool.not_eq_true']
            simpa using Ne.symm hne
        · rw [wf.get_absent hk harr fun i hi h => hpres ⟨i, hi, h⟩]

end Table

end Luatier
