import Luatier.Gc.CollectionSafety
import Luatier.Gc.IncrementalSafety

/-!
# The entries of weak tables

Weak values are cleared twice, before and after the finalizable objects are
resurrected, and weak keys once, after it.
-/

namespace Luatier

open Tricolor

namespace Table

def body (t : Table) : List TValue × List TableNode × UInt8 :=
  (t.array, t.hash, t.weakMode)

end Table

namespace State

variable {L L' : State}

def weakRef (v : TValue) : Option Addr :=
  match v with
  | .string _ => none
  | v => v.asGc?

/-! ## The tables through a sweep -/

theorem body_getTm (L : State) (mt : Option Addr) (e : TmEvent) (a : Addr) :
    ((L.getTm mt e).2.table? a).map Table.body = (L.table? a).map Table.body := by
  rcases L.getTm_state mt e with h | ⟨b, -, -, h⟩
  · rw [h]
  · rw [h, table?_updateTable, Option.map_map]
    congr 1
    funext t
    simp only [Function.comp_apply]
    split <;> rfl

theorem body_separate (L : State) (cells : List (Addr × Object)) (a : Addr) :
    ((L.separate cells).2.table? a).map Table.body = (L.table? a).map Table.body := by
  induction cells generalizing L with
  | nil => rfl
  | cons cell cells ih =>
      obtain ⟨b, o⟩ := cell
      rw [separate]
      by_cases hwhite : L.isWhite b = true
      · rw [if_pos hwhite]
        refine (ih _).trans ?_
        rcases L.objectHasGc_state b o with h | ⟨mt, h⟩
        · rw [h]
        · rw [h, body_getTm]
      · rw [if_neg hwhite]
        exact ih L

def clearNodeValue (L : State) (t : Table) (n : TableNode) : TableNode :=
  if n.used then { n with value := L.clearValue t n.value } else n

theorem table?_clearWeakTables (L : State) (mask : UInt8) (a : Addr) :
    (L.clearWeakTables mask).table? a = (L.table? a).map fun t =>
      if t.weakMode != 0 then t.clearWeakEntries L.deadValue mask else t := by
  have hobject : (L.clearWeakTables mask).object? a = (L.object? a).map
      (Object.mapTable fun t =>
        if t.weakMode != 0 then t.clearWeakEntries L.deadValue mask else t) := by
    simp only [object?, clearWeakTables, Heap.object?_mapCells]
  simp only [table?, hobject]
  cases L.object? a with
  | none => rfl
  | some o => cases o <;> rfl

theorem body_clearWeakTables_two (L : State) (a : Addr) :
    ((L.clearWeakTables 2).table? a).map Table.body =
      (L.table? a).map fun t => (t.array.map (L.clearValue t),
        t.hash.map (L.clearNodeValue t), t.weakMode) := by
  rw [table?_clearWeakTables, Option.map_map]
  congr 1
  funext t
  obtain ⟨hkeys, hvalues⟩ := mask_two t.weakMode
  have hvalue : (fun v => if t.weakMode &&& 2 != 0 && L.deadValue v then
      TValue.nil else v) = L.clearValue t := rfl
  by_cases hmode : t.weakMode = 0
  · have hv : t.weakValues = false := by simp [Table.weakValues, hmode]
    have hid : L.clearValue t = id := by
      funext v
      simp [clearValue, hv]
    have hnode : L.clearNodeValue t = id := by
      funext n
      simp only [clearNodeValue, hid, id_eq, ite_self]
    simp [Table.body, hmode, hid, hnode]
  · simp only [Function.comp_apply, bne_iff_ne, ne_eq, hmode, not_false_eq_true,
      if_true, Table.body, Table.clearWeakEntries, hkeys, hvalues, hvalue,
      bne_self_eq_false, Bool.false_and, Bool.false_eq_true, if_false]
    congr 2
    refine List.map_congr_left fun n _ => ?_
    simp only [clearNodeValue]
    cases n.used <;> rfl

theorem clearValue_congr (hgc : L'.gc = L.gc) : L'.clearValue = L.clearValue := by
  have hdead : L'.deadValue = L.deadValue := by
    funext v
    simp only [deadValue, isWhite, hgc]
  funext t v
  simp only [clearValue, hdead]

theorem clearNodeValue_congr (hgc : L'.gc = L.gc) :
    L'.clearNodeValue = L.clearNodeValue := by
  funext t n
  simp only [clearNodeValue, clearValue_congr hgc]

theorem body_sweepMarked (L : State) (a : Addr) :
    (L.sweepMarked.table? a).map Table.body =
      (L.table? a).map fun t => (t.array.map (L.clearValue t),
        t.hash.map (L.clearNodeValue t), t.weakMode) := by
  have hclear := L.clearDeadStacks_cleared
  obtain ⟨-, -, hgc⟩ := separate_eq L.clearDeadStacks L.clearDeadStacks.heap
  have hatomic := (atomicMark_onlyMarks
    (L.clearDeadStacks.separate L.clearDeadStacks.heap).2 L.sweepPending).data
  have hmarked : L.sweepMarked.table? a = ((L.clearDeadStacks.separate
      L.clearDeadStacks.heap).2.clearWeakTables 2).table? a := hatomic.table? a
  have hseparate := L.clearDeadStacks.body_separate L.clearDeadStacks.heap a
  rw [hmarked, body_clearWeakTables_two, clearValue_congr (hgc.trans hclear.gc),
    clearNodeValue_congr (hgc.trans hclear.gc), ← hclear.data.table? a]
  -- The clearing reads only what the separation leaves alone.
  have hbody (o : Option Table) : (o.map fun t => (t.array.map (L.clearValue t),
      t.hash.map (L.clearNodeValue t), t.weakMode)) =
      (o.map Table.body).map fun b =>
        (b.1.map (L.clearValue { weakMode := b.2.2 }),
          b.2.1.map (L.clearNodeValue { weakMode := b.2.2 }), b.2.2) := by
    cases o <;> rfl
  rw [hbody, hbody, hseparate]

/-! ## What a sweep does to the entries -/

theorem deadValue_iff (hL : L.gc.marks.Unpainted L.gc.white) (v : TValue) :
    L.deadValue v = true ↔ ∃ o, v.asGc? = some o ∧ ¬ L.gc.marks.Marked o := by
  unfold deadValue isWhite
  cases hv : v.asGc? with
  | none => simp
  | some o =>
      simp only [beq_iff_eq, hL.isWhite_iff, Option.some.injEq]
      constructor
      · exact fun h => ⟨o, rfl, h⟩
      · rintro ⟨_, rfl, h⟩
        exact h

theorem sweepObjects_table (hL : L.Painted) {a : Addr} {t : Table} (ha : L.SweepKept a)
    (ht : L.table? a = some t) :
    ∃ t', L.sweepObjects.table? a = some t' ∧
      t'.array = t.array.map (fun v => L.sweepMarked.clearValue t (L.clearValue t v)) ∧
      t'.hash = t.hash.map fun n =>
        L.sweepMarked.clearNode t (L.clearNodeValue t n) := by
  have hbody := L.body_sweepMarked a
  rw [ht, Option.map_some] at hbody
  obtain ⟨u, hu, hub⟩ := Option.map_eq_some_iff.mp hbody
  obtain ⟨harray, hhash, hmode⟩ : u.array = _ ∧ u.hash = _ ∧ u.weakMode = _ := by
    simpa only [Table.body, Prod.mk.injEq] using hub
  have hswept : L.sweepObjects.table? a = some (L.sweepMarked.finalClear u) := by
    rw [table?_eq_some, (hL.sweepObjects_object? a).1 ha, table?_eq_some.mp hu]
    rfl
  generalize L.clearValue t = f at harray
  generalize L.clearNodeValue t = g at hhash
  generalize L.sweepMarked = M at hswept
  have hvalues : u.weakValues = t.weakValues := by
    rw [Table.weakValues, hmode]
    rfl
  have hkeys : u.weakKeys = t.weakKeys := by
    rw [Table.weakKeys, hmode]
    rfl
  have hvalue : M.clearValue u = M.clearValue t := by
    funext v
    simp only [clearValue, hvalues]
  have hnode : M.clearNode u = M.clearNode t := by
    funext n
    simp only [clearNode, hvalue, hkeys]
  refine ⟨_, hswept, ?_, ?_⟩
  · rw [finalClear_eq, harray, hvalue, List.map_map]
    rfl
  · rw [finalClear_eq, hhash, hnode, List.map_map]
    rfl

theorem clearValue_twice (hL : L.Painted) (t : Table) (v : TValue) :
    L.sweepMarked.clearValue t (L.clearValue t v) = L.clearValue t v := by
  obtain ⟨-, hset, hmarked⟩ := hL.sweepMarked
  by_cases hdead : (t.weakValues && L.deadValue v) = true
  · rw [clearValue, clearValue, if_pos hdead]
    split <;> rfl
  · have halive : ¬ (t.weakValues && L.sweepMarked.deadValue v) = true := by
      simp only [Bool.and_eq_true, deadValue_iff hset.unpainted,
        deadValue_iff hL.unpainted] at hdead ⊢
      rintro ⟨hw, o, ho, hnot⟩
      exact hdead ⟨hw, o, ho, fun hm => hnot ((hmarked o).mpr (.base (Or.inl hm)))⟩
    rw [clearValue, clearValue, if_neg hdead, if_neg halive]

/-! ## Entries and their weak components -/

/-- The weak components of an entry that are objects are alive. -/
def Alive (alive : Addr → Prop) (t : Table) (key value : TValue) : Prop :=
  (t.weakKeys = true → ∀ o, weakRef key = some o → alive o) ∧
    (t.weakValues = true → ∀ o, weakRef value = some o → alive o)

/--
What a sweep goes by: its weak keys, strings among them, are those that it keeps in the
end, its weak values those that are marked when it starts.
-/
def Followed (kept marked : Addr → Prop) (t : Table) (key value : TValue) : Prop :=
  (t.weakKeys = true → ∀ o, key.asGc? = some o → kept o) ∧
    (t.weakValues = true → ∀ o, value.asGc? = some o → marked o)

/-- The entries with live components are those that are left. -/
structure EntriesExact (alive : Addr → Prop) (t t' : Table) : Prop where
  array : ∀ (i : Nat) v, t.array[i]? = some v → v ≠ .nil →
    (Alive alive t .nil v → t'.array[i]? = some v) ∧
      (¬ Alive alive t .nil v → t'.array[i]? = some .nil)
  hash : ∀ (i : Nat) n, t.hash[i]? = some n → n.used = true → n.value ≠ .nil →
    (Alive alive t n.key n.value → t'.hash[i]? = some n) ∧
      (¬ Alive alive t n.key n.value → ∃ n', t'.hash[i]? = some n' ∧ n'.value = .nil)

/-- The entries with live components are those that the collector goes by. -/
structure EntriesFollowed (alive kept marked : Addr → Prop) (t : Table) : Prop where
  array : ∀ v ∈ t.array, v ≠ .nil →
    (Alive alive t .nil v ↔ Followed kept marked t .nil v)
  hash : ∀ n ∈ t.hash, n.used = true → n.value ≠ .nil →
    (Alive alive t n.key n.value ↔ Followed kept marked t n.key n.value)

theorem stays_iff {alive followed stays gone : Prop} (hstays : followed → stays)
    (hgone : ¬ followed → gone) (hnot : stays → ¬ gone) :
    ((alive → stays) ∧ (¬ alive → gone)) ↔ (alive ↔ followed) := by
  tauto

theorem followed_iff {kept marked : Addr → Prop} {t : Table} {key value : TValue} :
    Followed kept marked t key value ↔
      ¬ (t.weakKeys = true ∧ ∃ o, key.asGc? = some o ∧ ¬ kept o) ∧
        ¬ (t.weakValues = true ∧ ∃ o, value.asGc? = some o ∧ ¬ marked o) := by
  simp only [Followed, not_and, not_exists, not_not]

theorem sweepObjects_entries (hL : L.Painted) {a : Addr} {t : Table} (ha : L.SweepKept a)
    (ht : L.table? a = some t) (alive : Addr → Prop) :
    ∃ t', L.sweepObjects.table? a = some t' ∧
      (EntriesExact alive t t' ↔
        EntriesFollowed alive L.SweepKept L.gc.marks.Marked t) := by
  obtain ⟨t', ht', harray, hhash⟩ := sweepObjects_table hL ha ht
  obtain ⟨-, hset, hmarked⟩ := hL.sweepMarked
  have hvalue (v : TValue) : (t.weakValues && L.deadValue v) = true ↔
      t.weakValues = true ∧ ∃ o, v.asGc? = some o ∧ ¬ L.gc.marks.Marked o := by
    rw [Bool.and_eq_true, deadValue_iff hL.unpainted]
  have hkey (v : TValue) : (t.weakKeys && L.sweepMarked.deadValue v) = true ↔
      t.weakKeys = true ∧ ∃ o, v.asGc? = some o ∧ ¬ L.SweepKept o := by
    rw [Bool.and_eq_true, deadValue_iff hset.unpainted]
    simp only [hmarked]
  have hslot {i : Nat} {v : TValue} (hv : t.array[i]? = some v) :
      t'.array[i]? = some (L.clearValue t v) := by
    rw [harray, List.getElem?_map, hv, Option.map_some, clearValue_twice hL]
  have hnode {i : Nat} {n : TableNode} (hn : t.hash[i]? = some n) (hused : n.used = true) :
      t'.hash[i]? = some (if t.weakKeys && L.sweepMarked.deadValue n.key then
          { n with key := .nil, value := .nil }
        else { n with value := L.clearValue t n.value }) := by
    rw [hhash, List.getElem?_map, hn, Option.map_some]
    simp only [clearNodeValue, hused, if_true, clearNode, Bool.not_true,
      Bool.false_eq_true, if_false, clearValue_twice hL]
  have harrayIff {i : Nat} {v : TValue} (hv : t.array[i]? = some v) (hnil : v ≠ .nil) :
      ((Alive alive t .nil v → t'.array[i]? = some v) ∧
        (¬ Alive alive t .nil v → t'.array[i]? = some .nil)) ↔
      (Alive alive t .nil v ↔ Followed L.SweepKept L.gc.marks.Marked t .nil v) := by
    rw [hslot hv]
    refine stays_iff (fun h => ?_) (fun h => ?_) fun h h' => hnil ?_
    · rw [clearValue, if_neg fun hdead => (followed_iff.mp h).2 ((hvalue v).mp hdead)]
    · have hdead : t.weakValues = true ∧ ∃ o, v.asGc? = some o ∧ ¬ L.gc.marks.Marked o := by
        by_contra hnot
        refine h (followed_iff.mpr ⟨?_, hnot⟩)
        rintro ⟨-, o, ho, -⟩
        contradiction
      rw [clearValue, if_pos ((hvalue v).mpr hdead)]
    · exact Option.some.inj (h.symm.trans h')
  have hhashIff {i : Nat} {n : TableNode} (hn : t.hash[i]? = some n) (hused : n.used = true)
      (hnil : n.value ≠ .nil) :
      ((Alive alive t n.key n.value → t'.hash[i]? = some n) ∧
        (¬ Alive alive t n.key n.value → ∃ n', t'.hash[i]? = some n' ∧ n'.value = .nil)) ↔
      (Alive alive t n.key n.value ↔
        Followed L.SweepKept L.gc.marks.Marked t n.key n.value) := by
    rw [hnode hn hused]
    refine stays_iff (fun h => ?_) (fun h => ?_) ?_
    · obtain ⟨hlive, hmark⟩ := followed_iff.mp h
      rw [if_neg fun hdead => hlive ((hkey n.key).mp hdead), clearValue,
        if_neg fun hdead => hmark ((hvalue n.value).mp hdead)]
    · refine ⟨_, rfl, ?_⟩
      by_cases hdead : (t.weakKeys && L.sweepMarked.deadValue n.key) = true
      · rw [if_pos hdead]
      · rw [if_neg hdead]
        refine if_pos ((hvalue n.value).mpr ?_)
        by_contra hnot
        exact h (followed_iff.mpr ⟨fun hk => hdead ((hkey n.key).mpr hk), hnot⟩)
    · rintro h ⟨n', hn', hgone⟩
      obtain rfl := Option.some.inj (h.symm.trans hn')
      exact hnil hgone
  refine ⟨t', ht', ?_⟩
  constructor
  · rintro ⟨ha, hh⟩
    refine ⟨fun v hv hnil => ?_, fun n hn hused hnil => ?_⟩
    · obtain ⟨i, hi⟩ := List.getElem?_of_mem hv
      exact (harrayIff hi hnil).mp (ha i v hi hnil)
    · obtain ⟨i, hi⟩ := List.getElem?_of_mem hn
      exact (hhashIff hi hused hnil).mp (hh i n hi hused hnil)
  · rintro ⟨ha, hh⟩
    exact ⟨fun i v hi hnil => (harrayIff hi hnil).mpr (ha v (List.mem_of_getElem? hi) hnil),
      fun i n hi hused hnil =>
        (hhashIff hi hused hnil).mpr (hh n (List.mem_of_getElem? hi) hused hnil)⟩

theorem collect_entries (hL : L.Quiescent) {a : Addr} {t : Table} (ha : L.Kept a)
    (ht : L.table? a = some t) (alive : Addr → Prop) :
    ∃ t', L.collect.table? a = some t' ∧
      (EntriesExact alive t t' ↔ EntriesFollowed alive L.Kept L.Traced t) := by
  obtain ⟨-, hset, hmarked⟩ := markPhase_spec hL
  have hpainted : L.markPhase.Painted := ⟨hset.consistent, hset.unpainted, hset.allocated⟩
  have hkept : L.markPhase.SweepKept = L.Kept :=
    funext fun b => propext ((hpainted.sweepMarked.2.2 b).symm.trans (collect_marked hL b))
  have htraced : L.markPhase.gc.marks.Marked = L.Traced :=
    funext fun b => propext (hmarked b)
  rw [← L.markPhase_data.table?] at ht
  rw [← hkept] at ha
  have hentries := sweepObjects_entries hpainted ha ht alive
  rwa [hkept, htraced] at hentries

end State

namespace Config

variable {c : Config}

/--
The globals hold a key, a weak-key table with table `9` under that key, and table `4`,
whose weak values are that table and no other.
-/
def ephemeronValue : State where
  main := some 1
  current := some 1
  globals := some 2
  strings := [6, 7, 11]
  tmNames := [none, none, none, some 6]
  heap := [(9, .table {}),
    (4, .table { array := [.table 9], metatable := some 10, weakMode := 2 }),
    (10, .table { hash := [⟨.string 6, .string 11, true⟩] }),
    (11, .string ⟨[118], 4077666505⟩),
    (3, .table
      { hash := [⟨.table 8, .table 9, true⟩]
        metatable := some 5
        weakMode := 1 }),
    (8, .table {}),
    (5, .table { hash := [⟨.string 6, .string 7, true⟩] }),
    (7, .string ⟨[107], 3993778410⟩),
    (2, .table { array := [.table 3, .table 8, .table 4] }),
    (6, .string ⟨[95, 95, 109, 111, 100, 101], 2995170092⟩),
    (1, .thread {})]

private theorem ephemeronValue_quiescent : ephemeronValue.Quiescent :=
  ⟨rfl, fun _ => rfl, rfl⟩

private theorem ephemeronValue_reachable : ephemeronValue.Reachable 9 := by
  have hglobals : ephemeronValue.Reachable 2 := .base ⟨by decide, by decide⟩
  have htable : ephemeronValue.Reachable 3 := .edge hglobals (by decide)
  have hkey : ephemeronValue.Reachable 8 := .edge hglobals (by decide)
  exact .joint htable hkey (by decide : (3, 8, 9) ∈ ephemeronValue.ephemerons)

private theorem ephemeronValue_cleared : ¬ State.EntriesExact ephemeronValue.Reachable
    { array := [.table 9], metatable := some 10, weakMode := 2 }
    { array := [.nil], metatable := some 10, weakMode := 2 } := by
  intro h
  have halive : State.Alive ephemeronValue.Reachable
      { array := [.table 9], metatable := some 10, weakMode := 2 } .nil (.table 9) := by
    refine ⟨fun _ o ho => (nomatch ho), fun _ o ho => ?_⟩
    obtain rfl := Option.some.inj ho
    exact ephemeronValue_reachable
  have hstays := (h.array 0 (.table 9) rfl (by decide)).1 halive
  contradiction

end Config

end Luatier
