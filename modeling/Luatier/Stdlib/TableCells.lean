import Luatier.Gc.Barrier
import Luatier.Stdlib.TableLib

/-!
# Tables without metamethods as cells

`geti` and `seti` read and write the elements of such a table, and change
nothing else that a program could tell; a lookup may mark an absent metamethod
in the cache of the metatable.
-/

namespace Luatier

open Table

namespace State

variable {L L' L'' : State} {a b : Addr} {t : Table} {e : TmEvent}

def TablesWf (L : State) : Prop := ∀ a t, L.table? a = some t → t.Wf L.interned

/-- A lookup of the event from the table finds nothing. -/
def Lacks (L : State) (a : Addr) (e : TmEvent) : Prop := (L.getMetamethod (.table a) e).1 = .nil

/-- A table that the library reads and writes by itself. -/
structure Plain (L : State) (a : Addr) : Prop where
  table : ∃ t, L.table? a = some t
  index : L.Lacks a .index
  newindex : L.Lacks a .newindex

/-- Some absences were marked, and elements with integer keys were stored. -/
structure ElementsOnly (L L' : State) : Prop where
  interned : L'.interned = L.interned
  tmNames : L'.tmNames = L.tmNames
  none : ∀ a, L.table? a = none → L'.table? a = none
  some : ∀ a t, L.table? a = some t → ∃ t', L'.table? a = some t' ∧
    t'.metatable = t.metatable ∧ t'.array.length ≤ max t.array.length 64 ∧
    (∀ e, t.noTm e = true → t'.noTm e = true) ∧
    (∀ s, t.Wf L.interned → t'.get L.interned (.string s) = t.get L.interned (.string s)) ∧
    (t.Wf L.interned → t'.Wf L.interned)

namespace ElementsOnly

theorem refl (L : State) : ElementsOnly L L where
  interned := rfl
  tmNames := rfl
  none _ := id
  some _ t ht := ⟨t, ht, rfl, Nat.le_max_left _ _, fun _ => id, fun _ _ => rfl, id⟩

theorem trans (h : ElementsOnly L L') (h' : ElementsOnly L' L'') : ElementsOnly L L'' where
  interned := h'.interned.trans h.interned
  tmNames := h'.tmNames.trans h.tmNames
  none a ha := h'.none a (h.none a ha)
  some a t ht := by
    obtain ⟨t', ht', hmeta, harr, hno, hget, hwf⟩ := h.some a t ht
    obtain ⟨t'', ht'', hmeta', harr', hno', hget', hwf'⟩ := h'.some a t' ht'
    rw [h.interned] at hget' hwf'
    exact ⟨t'', ht'', hmeta'.trans hmeta, by omega, fun e he => hno' e (hno e he),
      fun s wf => (hget' s (hwf wf)).trans (hget s wf), fun wf => hwf' (hwf wf)⟩

theorem back (h : ElementsOnly L L') {t' : Table} (ht' : L'.table? a = Option.some t') :
    ∃ t, L.table? a = Option.some t := by
  cases ht : L.table? a with
  | none =>
      rw [h.none a ht] at ht'
      exact nomatch ht'
  | some t => exact ⟨t, rfl⟩

theorem tablesWf (h : ElementsOnly L L') (wf : L.TablesWf) : L'.TablesWf := by
  intro a t' ht'
  obtain ⟨t, ht⟩ := h.back ht'
  obtain ⟨t'', ht'', -, -, -, -, hwf⟩ := h.some a t ht
  obtain rfl := Option.some.inj (ht'.symm.trans ht'')
  rw [h.interned]
  exact hwf (wf a t ht)

end ElementsOnly

theorem lacks_iff (ht : L.table? a = some t) : L.Lacks a e ↔
    ∀ m mt name, t.metatable = some m → L.table? m = some mt → mt.noTm e = false →
      L.tmNames.getD e.ctorIdx none = some name → mt.get L.interned (.string name) = .nil := by
  unfold Lacks getMetamethod
  have hmeta : L.getMetatable (.table a) = t.metatable := by
    rw [getMetatable, ht]
    rfl
  rw [hmeta, getTm]
  cases hm : t.metatable with
  | none => simp
  | some m =>
      cases hmt : L.table? m with
      | none => grind
      | some mt =>
          cases hname : L.tmNames.getD e.ctorIdx none with
          | none => grind
          | some name => grind [TValue.isNil_iff]

theorem Lacks.elementsOnly (hlacks : L.Lacks a e) (h : ElementsOnly L L') (wf : L.TablesWf)
    (ht : L.table? a = some t) : L'.Lacks a e := by
  obtain ⟨t', ht', hmeta, -⟩ := h.some a t ht
  rw [lacks_iff ht']
  intro m mt' name hm hmt' hno hname
  obtain ⟨mt, hmt⟩ := h.back hmt'
  obtain ⟨mt'', hmt'', -, -, hno', hget, -⟩ := h.some m mt hmt
  obtain rfl := Option.some.inj (hmt'.symm.trans hmt'')
  rw [h.interned, hget name (wf m mt hmt)]
  rw [hmeta] at hm
  rw [h.tmNames] at hname
  apply (lacks_iff ht).mp hlacks m mt name hm hmt ?_ hname
  cases hold : mt.noTm e with
  | false => rfl
  | true =>
      rw [hno' e hold] at hno
      exact nomatch hno

theorem Plain.elementsOnly (hplain : L.Plain a) (h : ElementsOnly L L') (wf : L.TablesWf) :
    L'.Plain a := by
  obtain ⟨⟨t, ht⟩, hindex, hnewindex⟩ := hplain
  obtain ⟨t', ht', -⟩ := h.some a t ht
  exact ⟨⟨t', ht'⟩, hindex.elementsOnly h wf ht, hnewindex.elementsOnly h wf ht⟩

/-! ## Marking an absence -/

theorem noTm_markNoTm_of {e' : TmEvent} (h : t.noTm e' = true) :
    (t.markNoTm e).noTm e' = true := by
  have hdistrib : (t.optFlags ||| tmBit e) &&& tmBit e' =
      (t.optFlags &&& tmBit e') ||| (tmBit e &&& tmBit e') := by
    simp only [← UInt32.toBitVec_inj, UInt32.toBitVec_and, UInt32.toBitVec_or,
      BitVec.and_or_distrib_right]
  simp only [noTm, markNoTm, hdistrib, bne_iff_ne, ne_eq, UInt32.or_eq_zero_iff] at h ⊢
  exact fun hzero => h hzero.1

theorem elementsOnly_markNoTm (L : State) (m : Addr) (e : TmEvent) :
    ElementsOnly L (L.updateTable m (·.markNoTm e)) where
  interned := interned_updateTable L m _
  tmNames := rfl
  none a ha := by rw [table?_updateTable, ha]; rfl
  some a t ht := by
    refine ⟨_, by rw [table?_updateTable, ht]; rfl, ?_⟩
    by_cases ha : a = m
    · simp only [ha, if_true]
      exact ⟨rfl, Nat.le_max_left _ _, fun e' => noTm_markNoTm_of, fun _ _ => rfl,
        fun wf => wf.congr rfl rfl⟩
    · simp only [ha, if_false]
      exact ⟨trivial, Nat.le_max_left _ _, fun _ => id, fun _ _ => trivial, id⟩

theorem rawGet_markNoTm (L : State) (m : Addr) (e : TmEvent) (v key : TValue) :
    (L.updateTable m (·.markNoTm e)).rawGet v key = L.rawGet v key := by
  cases v with
  | table b =>
      simp only [rawGet, table?_updateTable, interned_updateTable]
      cases L.table? b with
      | none => rfl
      | some t =>
          by_cases hb : b = m
          · simp only [hb, Option.map_some, if_true]
            rfl
          · simp only [hb, Option.map_some, if_false]
  | _ => rfl

theorem getMetamethod_elementsOnly (L : State) (v : TValue) (e : TmEvent) :
    ElementsOnly L (L.getMetamethod v e).2 ∧
      ∀ w key, (L.getMetamethod v e).2.rawGet w key = L.rawGet w key := by
  rcases getTm_state L (L.getMetatable v) e with hsame | ⟨m, -, -, hmark⟩
  · have hstate : (L.getMetamethod v e).2 = L := hsame
    rw [hstate]
    exact ⟨.refl L, fun _ _ => rfl⟩
  · have hstate : (L.getMetamethod v e).2 = L.updateTable m (·.markNoTm e) := hmark
    rw [hstate]
    exact ⟨elementsOnly_markNoTm L m e, rawGet_markNoTm L m e⟩

theorem Lacks.getMetamethod (h : L.Lacks a e) : ∃ L', L.getMetamethod (.table a) e = (.nil, L') ∧
    ElementsOnly L L' ∧ ∀ v key, L'.rawGet v key = L.rawGet v key :=
  ⟨_, Prod.ext h rfl, getMetamethod_elementsOnly L (.table a) e⟩

/-! ## Storing an element -/

theorem barriers_marks (L : State) (a : Addr) (values : List TValue) :
    ∃ marks, L.barriers a values = L.withMarks marks := by
  rw [barriers_eq]
  split
  · exact ⟨_, rfl⟩
  · exact ⟨L.gc.marks, rfl⟩

theorem rawSet_table (wf : L.TablesWf) (ht : L.table? a = some t) (i : Int64) (value : TValue) :
    ∃ r L', t.set L.interned 3 (.integer i) value = .ok r ∧
      StoreOk L.interned t (.integer i) value r ∧ L.rawSet a (.integer i) value = .ok () L' ∧
      L'.interned = L.interned ∧ L'.tmNames = L.tmNames ∧
      ∀ b, L'.table? b = if b = a then some r.table else L.table? b := by
  obtain ⟨r, hr, hok⟩ := set_ok (wf a t ht) (canonical_integer i).1 value (Nat.le_refl 3)
  obtain ⟨marks, hmarks⟩ := barriers_marks (L.updateTable a fun _ => r.table) a r.barriers
  refine ⟨r, L.storeTable a (.ok r), hr, hok, ?_, ?_, ?_, ?_⟩
  · rw [rawSet, rawStore, ht]
    simp only [Option.map_some, hr]
  · rw [storeTable, hmarks]
    exact interned_updateTable L a _
  · rw [storeTable, hmarks]
    rfl
  · intro b
    rw [storeTable, hmarks]
    show (L.updateTable a fun _ => r.table).table? b = _
    rw [table?_updateTable]
    by_cases hb : b = a
    · simp [hb, ht]
    · simp [hb]

theorem rawSet_elementsOnly (wf : L.TablesWf) (ht : L.table? a = some t) (i : Int64)
    (value : TValue) : ∃ L', L.rawSet a (.integer i) value = .ok () L' ∧ ElementsOnly L L' ∧
      ∀ b k, Canonical k → L'.rawGet (.table b) k =
        if b = a ∧ k = .integer i then value else L.rawGet (.table b) k := by
  obtain ⟨r, L', hr, hok, hset, hinterned, htmNames, htable⟩ := rawSet_table wf ht i value
  have hget : ∀ k, Canonical k → r.table.get L.interned k =
      if k = .integer i then value else t.get L.interned k := by
    intro k hk
    rw [hok.get_eq k hk.1, hk.2, (canonical_integer i).2]
  refine ⟨L', hset, ⟨hinterned, htmNames, ?_, ?_⟩, ?_⟩
  · intro b hb
    rw [htable, if_neg ?_]
    · exact hb
    · rintro rfl
      rw [ht] at hb
      exact nomatch hb
  · intro b t' ht'
    by_cases hb : b = a
    · subst hb
      obtain rfl := Option.some.inj (ht.symm.trans ht')
      have hflags := (set_setInt_flags 3).1 t (.integer i) value r hr
      refine ⟨r.table, by rw [htable, if_pos rfl], (set_barriered hr).metatable,
        (set_setInt_array 3).1 t (.integer i) value r hr, ?_, ?_, fun _ => hok.wf⟩
      · intro e he
        have hsame : r.table.optFlags = t.optFlags := hflags
        rwa [noTm, hsame]
      · intro s _
        have hs : Canonical (.string s) := ⟨⟨by simp, rfl⟩, rfl⟩
        rw [hget _ hs, if_neg (by simp)]
    · exact ⟨t', by rw [htable, if_neg hb, ht'], rfl, Nat.le_max_left _ _, fun _ => id,
        fun _ _ => rfl, id⟩
  · intro b k hk
    simp only [rawGet, htable, hinterned]
    by_cases hb : b = a
    · simp only [hb, if_true, true_and, ht, Option.map_some, Option.getD_some, hget k hk]
    · simp only [hb, if_false, false_and]

end State

namespace TableLib

open Cells

variable {W : Type} {host : Host W} {p : Process W} {a : Addr}

/-! ## Accesses -/

theorem metaIndex_present {L : State} {i : Int64}
    (hv : L.rawGet (.table a) (.integer i) ≠ .nil) (site : ErrorSite) :
    Access.metaIndex site none L (.table a) (.integer i) =
      .done (L.rawGet (.table a) (.integer i)) L := by
  have hnil := TValue.isNil_eq_false_iff.mpr hv
  rw [Access.metaIndex_eq]
  apply Chase.chase_settled (n := 1999)
  simp only [Access.indexRound, TValue.isTable, if_true, hnil, Bool.not_false]

theorem metaNewindex_present {L : State} {i : Int64} (wf : L.TablesWf)
    (htable : ∃ t, L.table? a = some t) (hv : L.rawGet (.table a) (.integer i) ≠ .nil)
    (site : ErrorSite) (v : TValue) :
    ∃ L', Access.metaNewindex site none L (.table a) (.integer i) v = .done () L' ∧
      State.ElementsOnly L L' ∧ ∀ b k, Canonical k → L'.rawGet (.table b) k =
        if b = a ∧ k = .integer i then v else L.rawGet (.table b) k := by
  have hnil := TValue.isNil_eq_false_iff.mpr hv
  obtain ⟨t, ht⟩ := htable
  obtain ⟨L', hset, honly, hraw⟩ := State.rawSet_elementsOnly wf ht i v
  refine ⟨L', ?_, honly, hraw⟩
  rw [Access.metaNewindex_eq]
  apply Chase.chase_settled (n := 1999)
  simp only [Access.newindexRound, hnil, Bool.not_false, if_true, hset]
  rfl

theorem metaIndex_plain {L : State} (hplain : L.Plain a) (site : ErrorSite) (i : Int64) :
    ∃ L', Access.metaIndex site none L (.table a) (.integer i) =
        .done (L.rawGet (.table a) (.integer i)) L' ∧
      State.ElementsOnly L L' ∧ ∀ w key, L'.rawGet w key = L.rawGet w key := by
  obtain ⟨L', hmm, honly, hraw⟩ := hplain.index.getMetamethod
  rw [Access.metaIndex_eq]
  by_cases hv : (L.rawGet (.table a) (.integer i)).isNil = true
  · refine ⟨L', ?_, honly, hraw⟩
    apply Chase.chase_settled (n := 1999)
    simp only [Access.indexRound, TValue.isTable, if_true, hv, Bool.not_true,
      Bool.false_eq_true, if_false, hmm]
    rw [TValue.isNil_iff.mp hv]
    rfl
  · rw [← Access.metaIndex_eq]
    refine ⟨L, metaIndex_present ?_ site, .refl _, fun _ _ => rfl⟩
    simpa [TValue.isNil_iff] using hv

theorem metaNewindex_plain {L : State} (wf : L.TablesWf) (hplain : L.Plain a)
    (site : ErrorSite) (i : Int64) (v : TValue) :
    ∃ L', Access.metaNewindex site none L (.table a) (.integer i) v = .done () L' ∧
      State.ElementsOnly L L' ∧ ∀ b k, Canonical k → L'.rawGet (.table b) k =
        if b = a ∧ k = .integer i then v else L.rawGet (.table b) k := by
  obtain ⟨L₁, hmm, honly, hraw⟩ := hplain.newindex.getMetamethod
  obtain ⟨t, ht⟩ := hplain.table
  rw [Access.metaNewindex_eq]
  by_cases hv : (L.rawGet (.table a) (.integer i)).isNil = true
  · obtain ⟨t₁, ht₁, -⟩ := honly.some a t ht
    obtain ⟨L', hset, honly', hraw'⟩ := State.rawSet_elementsOnly (honly.tablesWf wf) ht₁ i v
    refine ⟨L', ?_, honly.trans honly', ?_⟩
    · apply Chase.chase_settled (n := 1999)
      simp only [Access.newindexRound, hv, Bool.not_true, Bool.false_eq_true, if_false, hmm,
        hset]
      rfl
    · intro b k hk
      rw [hraw' b k hk, hraw]
  · rw [← Access.metaNewindex_eq]
    apply metaNewindex_present wf ⟨t, ht⟩
    simpa [TValue.isNil_iff] using hv

theorem access_done {α : Type} {result : TValue → α} (run : State → Access α) {r : α}
    {L' : State} (h : run p.L = .done r L') :
    access host result run p = .ok r { p with L := L' } := by
  rw [access, h]

theorem geti_done {i : Int64} {v : TValue} {L' : State}
    (h : Access.metaIndex host.site none p.L (.table a) (.integer i) = .done v L') :
    geti host (.table a) i p =
      .ok v { p with L := L', trace := .read (.table a) i :: p.trace } :=
  access_done (p := { p with trace := .read (.table a) i :: p.trace })
    (fun L => Access.metaIndex host.site none L (.table a) (.integer i)) h

theorem seti_done {i : Int64} {v : TValue} {L' : State}
    (h : Access.metaNewindex host.site none p.L (.table a) (.integer i) v = .done () L') :
    seti host (.table a) i v p =
      .ok () { p with L := L', trace := .write (.table a) i :: p.trace } :=
  access_done (p := { p with trace := .write (.table a) i :: p.trace })
    (fun L => Access.metaNewindex host.site none L (.table a) (.integer i) v) h

theorem geti_plain (hplain : p.L.Plain a) (i : Int64) :
    Returns (geti host (.table a) i) p fun v p' =>
      v = p.L.rawGet (.table a) (.integer i) ∧ State.ElementsOnly p.L p'.L ∧
        ∀ w key, p'.L.rawGet w key = p.L.rawGet w key := by
  obtain ⟨L', haccess, honly, hraw⟩ := metaIndex_plain hplain host.site i
  apply returns_iff.mpr
  exact ⟨_, _, geti_done haccess, rfl, honly, hraw⟩

theorem seti_plain (wf : p.L.TablesWf) (hplain : p.L.Plain a) (i : Int64) (v : TValue) :
    Returns (seti host (.table a) i v) p fun _ p' => State.ElementsOnly p.L p'.L ∧
      ∀ b k, Canonical k → p'.L.rawGet (.table b) k =
        if b = a ∧ k = .integer i then v else p.L.rawGet (.table b) k := by
  obtain ⟨L', haccess, honly, hraw⟩ := metaNewindex_plain wf hplain host.site i v
  apply returns_iff.mpr
  exact ⟨(), _, seti_done haccess, honly, hraw⟩

/-! ## The cells -/

abbrev Cell := Addr × { k : TValue // Canonical k }

def cell (a : Addr) (i : Int64) : Cell := (a, ⟨.integer i, canonical_integer i⟩)

theorem cell_inj {b : Addr} {i j : Int64} : cell a i = cell b j ↔ a = b ∧ i = j := by
  simp [cell]

/-- The tables on which the library works are plain. -/
structure Ready (D : Addr → Prop) (p : Process W) : Prop where
  wf : p.L.TablesWf
  plain : ∀ a, D a → p.L.Plain a

theorem Ready.elementsOnly {D : Addr → Prop} (h : Ready D p) {p' : Process W}
    (honly : State.ElementsOnly p.L p'.L) : Ready D p' where
  wf := honly.tablesWf h.wf
  plain a ha := (h.plain a ha).elementsOnly honly h.wf

variable (host) (D : Addr → Prop) (L₀ : State)

/-- The contents of all tables, of which those in `D` are at hand, since the state `L₀`. -/
def elements : Cells Fault (Process W) Cell TValue where
  view p c := p.L.rawGet (.table c.1) c.2
  Ok p := Ready D p ∧ State.ElementsOnly L₀ p.L
  Mem c := D c.1 ∧ ∃ i, c = cell c.1 i
  get c :=
    match c.2.val with
    | .integer i => geti host (.table c.1) i
    | _ => pure .nil
  put c v :=
    match c.2.val with
    | .integer i => seti host (.table c.1) i v
    | _ => pure ()
  get_ok := by
    rintro p c ⟨hp, hsince⟩ ⟨hD, i, hc⟩
    rw [hc]
    apply (geti_plain (hp.plain _ hD) i).imp
    rintro v p' ⟨rfl, honly, hraw⟩
    exact ⟨rfl, ⟨hp.elementsOnly honly, hsince.trans honly⟩, funext fun c => hraw _ _⟩
  put_ok := by
    rintro p c v ⟨hp, hsince⟩ ⟨hD, i, hc⟩
    rw [hc]
    apply (seti_plain hp.wf (hp.plain _ hD) i v).imp
    rintro _ p' ⟨honly, hraw⟩
    refine ⟨⟨hp.elementsOnly honly, hsince.trans honly⟩, ?_⟩
    funext ⟨b, k, hk⟩
    rw [hraw b k hk, Function.update_apply]
    simp [cell]

end TableLib

end Luatier
