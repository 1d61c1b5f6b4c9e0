import Luatier.Gc.Collection

/-!
# When a collection is safe

A collection is safe when every reachable object survives it and no surviving
table has an entry for a freed object.  It is safe exactly when the references
that the collector does not follow lead to objects that it keeps anyway.
-/

namespace Luatier

open Tricolor

namespace Table

theorem of_trace_eq {t u : Table} (h : u.trace = t.trace) :
    u.weakMode = t.weakMode ∧ (t.weakValues = false →
      u.array = t.array ∧ u.hash = t.hash) := by
  have hmode : u.weakMode = t.weakMode := by
    have := congrArg weakMode h
    exact this
  refine ⟨hmode, fun hv => ?_⟩
  have hu : u.weakValues = false := by
    simpa only [weakValues, hmode] using hv
  have harray := congrArg array h
  have hhash := congrArg hash h
  simp only [trace, hv, hu, Bool.false_eq_true, if_false] at harray hhash
  exact ⟨harray, hhash⟩

end Table

namespace State

variable {L : State}

/-! ## What the last clearing leaves in a table -/

def clearValue (L : State) (t : Table) (v : TValue) : TValue :=
  if t.weakValues && L.deadValue v then .nil else v

def clearNode (L : State) (t : Table) (n : TableNode) : TableNode :=
  if !n.used then n
  else if t.weakKeys && L.deadValue n.key then
    { n with key := .nil, value := .nil }
  else { n with value := L.clearValue t n.value }

theorem finalClear_eq (L : State) (t : Table) :
    L.finalClear t = { t with
      array := t.array.map (L.clearValue t)
      hash := t.hash.map (L.clearNode t) } := by
  obtain ⟨hkeys₂, hvalues₂⟩ := mask_two t.weakMode
  obtain ⟨hvalues₁, hkeys₁⟩ := mask_one t.weakMode
  by_cases hmode : t.weakMode = 0
  · have hk : t.weakKeys = false := by simp [Table.weakKeys, hmode]
    have hv : t.weakValues = false := by simp [Table.weakValues, hmode]
    have hvalue : L.clearValue t = id := by
      funext v
      simp [clearValue, hv]
    have hnode : L.clearNode t = id := by
      funext n
      simp only [clearNode, hk, hvalue, Bool.false_and, Bool.false_eq_true,
        if_false, id_eq, ite_self]
    have hsame : L.finalClear t = t := by simp [finalClear, hmode]
    rw [hsame, hvalue, hnode, List.map_id, List.map_id]
  · have hvalue : (fun v => if t.weakMode &&& 2 != 0 && L.deadValue v then
        TValue.nil else v) = L.clearValue t := rfl
    simp only [finalClear, bne_iff_ne, ne_eq, hmode, not_false_eq_true, if_true,
      Table.clearWeakEntries, hkeys₂, hvalues₂, hkeys₁, hvalues₁, hvalue,
      bne_self_eq_false, Bool.false_and, Bool.false_eq_true, if_false,
      List.map_map]
    congr 2
    funext n
    simp only [Function.comp_apply, clearNode, Table.weakKeys]
    by_cases hused : n.used = true
    · simp [hused, clearValue, Table.weakValues]
    · simp [hused]

theorem mem_entryRefs_finalClear {t : Table} {b : Addr}
    (h : b ∈ (L.finalClear t).entryRefs) :
    (∃ v ∈ t.array, v.asGc? = some b ∧
      (t.weakValues = true → L.isWhite b = false)) ∨
    ∃ n ∈ t.hash, n.used = true ∧ n.key ≠ .nil ∧
      (t.weakKeys = true → L.deadValue n.key = false) ∧
      (n.key.asGc? = some b ∨ n.value.asGc? = some b ∧
        (t.weakValues = true → L.isWhite b = false)) := by
  have hvalue : ∀ v, (L.clearValue t v).asGc? = some b →
      v.asGc? = some b ∧ (t.weakValues = true → L.isWhite b = false) := by
    intro v hv
    unfold clearValue at hv
    split at hv
    · simp [TValue.asGc?] at hv
    · rename_i hdead
      refine ⟨hv, fun hw => ?_⟩
      simpa [hw, deadValue, hv] using hdead
  rw [finalClear_eq] at h
  simp only [Table.entryRefs, List.mem_append, List.mem_filterMap,
    List.mem_flatMap, List.mem_map] at h
  rcases h with ⟨_, ⟨v, hv, rfl⟩, hvb⟩ | ⟨_, ⟨n, hn, rfl⟩, hnb⟩
  · exact Or.inl ⟨v, hv, hvalue v hvb⟩
  · right
    split at hnb
    · rename_i hlive
      simp only [Bool.and_eq_true, Bool.not_eq_true',
        TValue.isNil_eq_false_iff] at hlive
      obtain ⟨hused, hkey⟩ := hlive
      unfold clearNode at hused hkey hnb
      by_cases hu : n.used = true
      · simp only [hu, Bool.not_true, Bool.false_eq_true, if_false] at hused hkey hnb
        by_cases hdead : (t.weakKeys && L.deadValue n.key) = true
        · simp [hdead] at hkey
        · simp only [hdead] at hkey hnb
          refine ⟨n, hn, hu, hkey, fun hw => by simpa [hw] using hdead, ?_⟩
          rcases List.mem_append.mp hnb with hb | hb
          · exact Or.inl (Option.mem_toList.mp hb)
          · exact Or.inr (hvalue n.value (Option.mem_toList.mp hb))
      · simp [hu] at hused
    · simp at hnb

theorem mem_entryRefs_finalClear_plain {t : Table} {n : TableNode} {b : Addr}
    (hv : t.weakValues = false) (hn : n ∈ t.hash) (hused : n.used = true)
    (hkey : n.key.isPlainKey = true) (hb : n.value.asGc? = some b) :
    b ∈ (L.finalClear t).entryRefs := by
  simp only [TValue.isPlainKey, Bool.and_eq_true, Bool.not_eq_true',
    Option.isNone_iff_eq_none] at hkey
  have hnode : L.clearNode t n = n := by
    have hdead : L.deadValue n.key = false := by simp [deadValue, hkey.2]
    rw [clearNode, if_neg (by simp [hused]), if_neg (by simp [hdead]),
      clearValue, if_neg (by simp [hv])]
  rw [finalClear_eq]
  simp only [Table.entryRefs, List.mem_append, List.mem_flatMap]
  refine Or.inr ⟨n, List.mem_map.mpr ⟨n, hn, hnode⟩, ?_⟩
  simp [hused, hkey.1, hb]

/-! ## The safety of a collection -/

/-- Every reachable object survives, and no entry of a survivor dangles. -/
structure SafeCollection (L L' : State) : Prop where
  survives : ∀ a, L.Reachable a → L'.heap.allocated a = true
  noDangling : ∀ a t b, L'.table? a = some t → b ∈ t.entryRefs →
    L.heap.allocated b = true → L'.heap.allocated b = true

/--
The references that the collector does not follow, and the values under plain
keys of the weak-key tables it keeps, lead to objects that it keeps anyway.
-/
structure UntracedKept (L : State) : Prop where
  references : ∀ a b, L.Reachable a → b ∈ L.strongReferences a →
    b ∉ L.clearDeadStacks.references a → L.Kept b
  plainKeys : ∀ a t n b, L.Kept a → L.table? a = some t →
    t.weakKeys = true → t.weakValues = false → n ∈ t.hash → n.used = true →
    n.key.isPlainKey = true → n.value.asGc? = some b →
    L.heap.allocated b = true → L.Kept b

theorem rootObjects_subset_roots (L : State) : L.rootObjects ⊆ L.roots := by
  intro a ha
  have hthreads : a ∈ L.rootThreads → a ∈ L.rootThreads.flatMap L.threadRoots := by
    intro ha
    refine List.mem_flatMap.mpr ⟨a, ha, ?_⟩
    unfold threadRoots
    split <;> simp
  simp only [rootObjects, roots, List.mem_append] at ha ⊢
  tauto

theorem UntracedKept.kept (h : L.UntracedKept) {a : Addr} (ha : L.Reachable a) :
    L.Kept a := by
  induction ha with
  | base hroot =>
      refine .base (Or.inl ⟨_, L.rootObjects_subset_roots hroot.1, hroot.2, .refl⟩)
  | edge ha hab ih =>
      rename_i a b
      by_cases htraced : b ∈ L.clearDeadStacks.references a
      · exact .edge ih htraced
      · exact h.references a b ha hab htraced
  | joint _ _ htkv iht ihk =>
      refine .joint iht ihk ?_
      rw [L.clearDeadStacks_cleared.ephemerons]
      exact htkv

theorem sweepMarked_table? (hL : L.Quiescent) (a : Addr) :
    (L.markPhase.sweepMarked.table? a).map Table.trace =
      (L.table? a).map Table.trace := by
  have htrace : ∀ {L L' : State}, SameGraph L L' →
      (L'.table? a).map Table.trace = (L.table? a).map Table.trace := by
    have hobject : ∀ L : State, (L.table? a).map Table.trace =
        ((L.object? a).map Object.trace).bind Object.table? := by
      intro L
      rw [table?_eq_bind]
      cases L.object? a with
      | none => rfl
      | some o => cases o <;> rfl
    intro L L' h
    rw [hobject, hobject, h.object?]
  rw [htrace (sweepMarked_sameGraph hL), L.clearDeadStacks_cleared.data.table?]

theorem entry_marked (hL : L.Quiescent) (h : L.UntracedKept) {a b : Addr}
    {u : Table} (ha : L.Kept a) (hu : L.markPhase.sweepMarked.table? a = some u)
    (hb : b ∈ (L.markPhase.sweepMarked.finalClear u).entryRefs)
    (halloc : L.heap.allocated b = true) : L.Kept b := by
  obtain ⟨-, hmset, -⟩ := markPhase_spec hL
  obtain ⟨-, hset, -⟩ := sweepMarked_spec hmset.toMarking
  have hgraph := sweepMarked_sameGraph hL
  have hclear := L.clearDeadStacks_cleared
  have hmarked := collect_marked hL
  obtain ⟨t, ht, htrace⟩ : ∃ t, L.table? a = some t ∧ u.trace = t.trace := by
    have := sweepMarked_table? hL a
    rw [hu, Option.map_some] at this
    obtain ⟨t, ht, htrace⟩ := Option.map_eq_some_iff.mp this.symm
    exact ⟨t, ht, htrace.symm⟩
  obtain ⟨hmode, hsame⟩ := Table.of_trace_eq htrace
  generalize L.markPhase.sweepMarked = M at *
  have hobject := table?_eq_some.mp hu
  have halloc' : M.heap.allocated b = true := by
    rw [hgraph.allocated, hclear.allocated]
    exact halloc
  have hwhite : ∀ {c}, M.isWhite c = false → L.Kept c := by
    intro c hc
    rw [← hmarked]
    by_contra hm
    have := hset.unpainted c hm
    simp [isWhite, this] at hc
  have hedge : b ∈ M.pointers a (.table u) → L.Kept b := by
    intro hb
    refine .edge ha ?_
    rw [← hgraph.references]
    simp only [references, hobject]
    exact List.mem_filter.mpr ⟨hb, halloc'⟩
  rcases mem_entryRefs_finalClear hb with ⟨v, hv, hvb, hweak⟩ |
    ⟨n, hn, hused, hkey, hkeys, hkb | ⟨hvb, hweak⟩⟩
  · by_cases hw : u.weakValues = true
    · exact hwhite (hweak hw)
    · refine hedge ?_
      simp only [pointers, hw, List.mem_append]
      exact Or.inl (Or.inr (List.mem_filterMap.mpr ⟨v, hv, hvb⟩))
  · by_cases hw : u.weakKeys = true
    · exact hwhite (by simpa [deadValue, hkb] using hkeys hw)
    · refine hedge ?_
      simp only [pointers, List.mem_append, List.mem_flatMap]
      exact Or.inr ⟨n, hn, by simp [hused, hw, hkb]⟩
  · by_cases hw : u.weakValues = true
    · exact hwhite (hweak hw)
    have hw' : u.weakValues = false := by simpa using hw
    by_cases hwk : u.weakKeys = true
    · cases hk : n.key.asGc? with
      | some k =>
          -- the key is alive, so the ephemeron rounds kept the value
          refine .joint ha (hwhite (c := k)
            (by simpa [deadValue, hk] using hkeys hwk)) ?_
          rw [← hgraph.ephemerons]
          refine List.mem_flatMap.mpr ⟨(a, .table u),
            Heap.mem_of_object? hobject, ?_⟩
          simp only [cellEphemerons, hwk, hw', Bool.not_false, Bool.and_self,
            if_true]
          refine List.mem_filterMap.mpr ⟨n, hn, ?_⟩
          simp [entryEphemeron, hused, hk, hvb, Option.filter, halloc']
      | none =>
          have hmodeK : t.weakKeys = true := by
            simpa only [Table.weakKeys, hmode] using hwk
          have hmodeV : t.weakValues = false := by
            simpa only [Table.weakValues, hmode] using hw'
          refine h.plainKeys a t n b ha ht hmodeK hmodeV
            ((hsame hmodeV).2 ▸ hn) hused ?_ hvb halloc
          simp [TValue.isPlainKey, hkey, hk]
    · refine hedge ?_
      simp only [pointers, List.mem_append, List.mem_flatMap]
      exact Or.inr ⟨n, hn, by simp [hused, hw', hwk, hvb]⟩

/-- A collection is safe exactly when nothing depends on an untraced reference. -/
theorem collect_safe_iff (hL : L.Quiescent) :
    SafeCollection L L.collect ↔ L.UntracedKept := by
  have hkept := collect_allocated hL
  constructor
  · intro hsafe
    refine ⟨fun a b ha hab _ => ?_, ?_⟩
    · have hb : L.Reachable b := .edge ha hab
      exact ((hkept b).mp (hsafe.survives b hb)).2
    · intro a t n b ha ht hwk hwv hn hused hkey hb halloc
      have htable := sweepMarked_table? hL a
      rw [ht, Option.map_some] at htable
      obtain ⟨u, hu, htrace⟩ := Option.map_eq_some_iff.mp htable
      obtain ⟨hmode, hsame⟩ := Table.of_trace_eq htrace
      have hcollect : L.collect.table? a =
          some (L.markPhase.sweepMarked.finalClear u) := by
        rw [table?_eq_some, (collect_object? hL a).1 ha, table?_eq_some.mp hu]
        rfl
      have hmem := mem_entryRefs_finalClear_plain (L := L.markPhase.sweepMarked)
        (t := u) (by simpa only [Table.weakValues, hmode] using hwv)
        ((hsame hwv).2 ▸ hn) hused hkey hb
      exact ((hkept b).mp (hsafe.noDangling a _ b hcollect hmem halloc)).2
  · intro h
    refine ⟨fun a ha => (hkept a).mpr ⟨ha.allocated, h.kept ha⟩, ?_⟩
    intro a t b ht hb halloc
    refine (hkept b).mpr ⟨halloc, ?_⟩
    have ha : L.Kept a := by
      by_contra ha
      have := (collect_object? hL a).2 ha
      rw [table?_eq_some.mp ht] at this
      contradiction
    have hobject := table?_eq_some.mp ht
    rw [(collect_object? hL a).1 ha] at hobject
    obtain ⟨o, ho, hmap⟩ := Option.map_eq_some_iff.mp hobject
    cases o with
    | table u =>
        obtain rfl := Object.table.inj hmap
        exact entry_marked hL h ha (table?_eq_some.mpr ho) hb halloc
    | _ => simp [Object.mapTable] at hmap

/-! ## The loop of `full_gc` -/

variable (runFinalizers : State → Outcome)

theorem stepUntilPause_propagate (n fuel : Nat) (L : State)
    (hgray : (L.propagateAll n).gc.marks.gray = [])
    (hphase : L.gc.phase = .propagate) (hfuel : n + 1 ≤ fuel) :
    ∃ fuel', fuel ≤ fuel' + n + 1 ∧ L.stepUntilPause runFinalizers fuel =
      ((L.propagateAll n).withPhase .sweep).stepUntilPause runFinalizers fuel' := by
  induction n generalizing fuel L with
  | zero =>
      obtain ⟨fuel, rfl⟩ := Nat.exists_eq_add_of_le' hfuel
      rw [propagateAll] at hgray ⊢
      refine ⟨fuel, by omega, ?_⟩
      simp [stepUntilPause, step, hphase, hgray]
  | succ n ih =>
      obtain ⟨fuel, rfl⟩ := Nat.exists_eq_add_of_le' hfuel
      rw [propagateAll] at hgray ⊢
      by_cases hg : L.gc.marks.gray = []
      · rw [if_pos hg]
        refine ⟨fuel + n + 1, by omega, ?_⟩
        have : fuel + (n + 1 + 1) = (fuel + n + 1) + 1 := by omega
        rw [this, stepUntilPause]
        simp [step, hphase, hg]
      · rw [if_neg hg] at hgray ⊢
        obtain ⟨fuel', hle, heq⟩ := ih (fuel + n + 1) L.propagateOne hgray
          (L.propagateOne_phase.trans hphase) (by omega)
        refine ⟨fuel', by omega, ?_⟩
        have : fuel + (n + 1 + 1) = (fuel + n + 1) + 1 := by omega
        rw [this, stepUntilPause]
        simp only [hphase, reduceCtorEq, if_false, step, hg]
        exact heq

theorem fullGc_eq (hL : L.Quiescent) (hc : L.gc.collecting = false) {fuel : Nat}
    (hfuel : L.heap.length + 3 ≤ fuel) :
    L.fullGc runFinalizers fuel =
      match runFinalizers (L.setCollecting true).collect with
      | .ok _ L' => .ok () ((L'.withPhase .pause).setCollecting false)
      | .error e L' =>
          .error e ((L'.setCollecting false).withPhase .pause).clearGray := by
  have hL' : (L.setCollecting true).Quiescent :=
    ⟨hL.phase, hL.white, hL.finalize⟩
  obtain ⟨-, hset, -⟩ := markPhase_spec hL'
  have hlen : (L.setCollecting true).heap.length = L.heap.length := rfl
  simp only [collect]
  rw [fullGc, if_neg (by simp [hc])]
  generalize L.setCollecting true = L₁ at *
  obtain ⟨k, rfl⟩ := Nat.exists_eq_add_of_le' hfuel
  have hpause : L₁.stepUntilPause runFinalizers (k + (L.heap.length + 3)) =
      .ok () L₁ := by
    rw [show k + (L.heap.length + 3) = (k + L.heap.length + 2) + 1 by omega,
      stepUntilPause, if_pos hL'.phase]
  have hstart : (L₁.clearGray.withPhase .pause).step runFinalizers =
      .ok () (L₁.clearGray.markRoots.withPhase .propagate) := by
    simp only [step, withPhase, markRoots, markAll_eq]
    rfl
  obtain ⟨fuel', hle, heq⟩ := stepUntilPause_propagate runFinalizers
    L₁.heap.length (k + (L.heap.length + 3))
    (L₁.clearGray.markRoots.withPhase .propagate) hset.gray rfl (by omega)
  simp only [fullCycles, hpause, hstart, heq]
  obtain ⟨f, rfl⟩ : ∃ f, fuel' = f + 1 + 1 := ⟨fuel' - 2, by omega⟩
  rw [stepUntilPause, if_neg (by simp [withPhase])]
  have hsweep : ((L₁.clearGray.markRoots.withPhase .propagate).propagateAll
      L₁.heap.length).withPhase .sweep = L₁.markPhase := rfl
  rw [hsweep]
  have hstep : L₁.markPhase.step runFinalizers =
      match runFinalizers L₁.markPhase.sweepObjects with
      | .ok _ L => .ok () (L.withPhase .pause)
      | .error e L => .error e L := rfl
  rw [hstep]
  cases runFinalizers L₁.markPhase.sweepObjects with
  | error e L' => rfl
  | ok _ L' =>
      simp only
      have hphase : (L'.withPhase .pause).gc.phase = .pause := rfl
      rw [stepUntilPause, if_pos hphase]

theorem kept_setCollecting (L : State) (collecting : Bool) :
    (L.setCollecting collecting).Kept = L.Kept := by
  have hgraph := (L.setCollecting_sameGraph collecting).clearDeadStacks
  have hdata : SameData L (L.setCollecting collecting) := ⟨rfl, rfl, rfl⟩
  have htraced : (L.setCollecting collecting).Traced = L.Traced := rfl
  simp only [Kept, hgraph.references, hgraph.ephemerons, htraced,
    hdata.hasFinalizer]

theorem untracedKept_setCollecting (L : State) (collecting : Bool) :
    (L.setCollecting collecting).UntracedKept ↔ L.UntracedKept := by
  have hgraph := (L.setCollecting_sameGraph collecting).clearDeadStacks
  have hreachable : (L.setCollecting collecting).Reachable = L.Reachable := rfl
  have hstrong : (L.setCollecting collecting).strongReferences =
      L.strongReferences := rfl
  have hkept := L.kept_setCollecting collecting
  constructor
  · intro h
    refine ⟨?_, ?_⟩
    · rw [← hgraph.references, ← hreachable, ← hstrong, ← hkept]
      exact h.references
    · rw [← hkept]
      exact h.plainKeys
  · intro h
    refine ⟨?_, ?_⟩
    · rw [hgraph.references, hreachable, hstrong, hkept]
      exact h.references
    · rw [hkept]
      exact h.plainKeys

/--
The safety of a full collection, judged where its finalizers start: it is safe
exactly when nothing depends on an untraced reference.
-/
theorem fullGc_safe_iff (hL : L.Quiescent) (hc : L.gc.collecting = false)
    {fuel : Nat} (hfuel : L.heap.length + 3 ≤ fuel) :
    (L.fullGc runFinalizers fuel =
      match runFinalizers (L.setCollecting true).collect with
      | .ok _ L' => .ok () ((L'.withPhase .pause).setCollecting false)
      | .error e L' =>
          .error e ((L'.setCollecting false).withPhase .pause).clearGray) ∧
    (SafeCollection L (L.setCollecting true).collect ↔ L.UntracedKept) := by
  have hL' : (L.setCollecting true).Quiescent :=
    ⟨hL.phase, hL.white, hL.finalize⟩
  refine ⟨fullGc_eq runFinalizers hL hc hfuel, ?_⟩
  have hsafe : SafeCollection L (L.setCollecting true).collect ↔
      SafeCollection (L.setCollecting true) (L.setCollecting true).collect :=
    ⟨fun h => ⟨h.survives, h.noDangling⟩, fun h => ⟨h.survives, h.noDangling⟩⟩
  rw [hsafe, collect_safe_iff hL', untracedKept_setCollecting]

/-! ## A value under a float key of a weak-key table -/

/-- The globals hold a weak-key table whose key `1.5` leads to another table. -/
def plainKeyHeap : State where
  main := some 1
  current := some 1
  globals := some 2
  strings := [6, 7]
  tmNames := [none, none, none, some 6]
  heap := [(4, .table {}),
    (3, .table
      { hash := [⟨.number 0x3FF8000000000000, .table 4, true⟩]
        metatable := some 5
        weakMode := 1 }),
    (5, .table { hash := [⟨.string 6, .string 7, true⟩] }),
    (7, .string ⟨[107], 3993778410⟩),
    (2, .table { array := [.table 3] }),
    (6, .string ⟨[95, 95, 109, 111, 100, 101], 2995170092⟩),
    (1, .thread {})]

theorem plainKeyHeap_quiescent : plainKeyHeap.Quiescent :=
  ⟨rfl, fun _ => rfl, rfl⟩

private theorem plainKeyHeap_dangles :
    ¬ SafeCollection plainKeyHeap (plainKeyHeap.setCollecting true).collect := by
  intro h
  have hdangling := h.noDangling 3
    { hash := [⟨.number 0x3FF8000000000000, .table 4, true⟩]
      metatable := some 5
      weakMode := 1 } 4
    (by decide) (by decide) (by decide)
  revert hdangling
  decide

/-- The value is freed although its table, and the entry for it, survive. -/
theorem fullGc_frees_value_of_plain_key :
    ∃ L : State, L.Quiescent ∧ L.gc.collecting = false ∧
      L.fullGc (.ok ()) 10 =
        .ok () (((L.setCollecting true).collect.withPhase .pause).setCollecting
          false) ∧
      ¬ SafeCollection L (L.setCollecting true).collect :=
  ⟨plainKeyHeap, plainKeyHeap_quiescent, rfl,
    fullGc_eq (.ok ()) plainKeyHeap_quiescent rfl (by decide),
    plainKeyHeap_dangles⟩

theorem fullGc_safe_iff_plainKeyHeap : ¬ plainKeyHeap.UntracedKept :=
  fun h => plainKeyHeap_dangles ((fullGc_safe_iff (.ok ())
    plainKeyHeap_quiescent rfl (by decide : 7 + 3 ≤ 10)).2.mpr h)

end State

end Luatier
