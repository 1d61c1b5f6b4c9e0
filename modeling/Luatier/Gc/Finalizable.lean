import Luatier.Gc.CollectionSafety

/-!
# What is put up for finalization

A sweep separates the unmarked objects with a finalizer before its ephemeron
rounds, so an object that only an ephemeron keeps alive is among them.
-/

namespace Luatier

namespace State

variable {L : State}

theorem collect_finalize (hL : L.Quiescent) (a : Addr) :
    a ∈ L.collect.gc.finalize ↔ L.HasFinalizer a ∧ ¬ L.Traced a := by
  obtain ⟨-, hset, hmarked⟩ := markPhase_spec hL
  have hmarks : L.markPhase.gc.finalize = [] := by
    have hroots : (L.clearGray.markRoots.withPhase .propagate).gc.finalize =
        L.gc.finalize := by
      rw [markRoots, markAll_eq]
      rfl
    have hpropagate := (propagateAll_onlyMarks L.heap.length
      (L.clearGray.markRoots.withPhase .propagate)).finalize
    rw [hroots, hL.finalize] at hpropagate
    exact hpropagate
  have hlist : L.collect.gc.finalize = L.markPhase.sweepPending := by
    have hswept : L.markPhase.sweepMarked.gc.finalize = [] := by
      rw [sweepMarked_gc]
      exact hmarks
    have happend : L.collect.gc.finalize =
        L.markPhase.sweepMarked.gc.finalize ++ L.markPhase.sweepPending := rfl
    rw [happend, hswept, List.nil_append]
  rw [hlist, mem_sweepPending hset.unpainted, hmarked,
    L.markPhase_data.hasFinalizer]

/-- No object that the program can still reach is put up for finalization. -/
def FinalizesUnreachable (L L' : State) : Prop :=
  ∀ a ∈ L'.gc.finalize, ¬ L.Reachable a

variable (runFinalizers : State → Outcome)

/--
The finalizers of a full collection are all those of unreachable objects
exactly when a path of followed references leads from a marked root to every
reachable object with a finalizer.
-/
theorem fullGc_finalizes_unreachable_iff (hL : L.Quiescent)
    (hc : L.gc.collecting = false) {fuel : Nat}
    (hfuel : L.heap.length + 3 ≤ fuel) :
    (L.fullGc runFinalizers fuel =
      match runFinalizers (L.setCollecting true).collect with
      | .ok _ L' => .ok () ((L'.withPhase .pause).setCollecting false)
      | .error e L' =>
          .error e ((L'.setCollecting false).withPhase .pause).clearGray) ∧
    (FinalizesUnreachable L (L.setCollecting true).collect ↔
      ∀ a, L.Reachable a → L.HasFinalizer a → L.Traced a) := by
  have hL' : (L.setCollecting true).Quiescent :=
    ⟨hL.phase, hL.white, hL.finalize⟩
  have hdata : SameData L (L.setCollecting true) := ⟨rfl, rfl, rfl⟩
  have htraced : (L.setCollecting true).Traced = L.Traced := rfl
  refine ⟨fullGc_eq runFinalizers hL hc hfuel, ?_⟩
  unfold FinalizesUnreachable
  simp only [collect_finalize hL', hdata.hasFinalizer, htraced]
  constructor
  · intro h a ha hgc
    by_contra hnot
    exact h a ⟨hgc, hnot⟩ ha
  · rintro h a ⟨hgc, hnot⟩ ha
    exact hnot (h a ha hgc)

/-! ## A table that only an ephemeron keeps -/

/--
The globals hold a key and a weak-key table; the value under the key, table
`4`, has a finalizer and is referred to from nowhere else.
-/
def ephemeronHeap : State where
  main := some 1
  current := some 1
  globals := some 2
  strings := [6, 7, 10]
  tmNames := [none, none, some 10, some 6]
  heap := [(4, .table { metatable := some 9 }),
    (9, .table { hash := [⟨.string 10, .function 11, true⟩] }),
    (11, .closure {}),
    (3, .table
      { hash := [⟨.table 8, .table 4, true⟩]
        metatable := some 5
        weakMode := 1 }),
    (8, .table {}),
    (5, .table { hash := [⟨.string 6, .string 7, true⟩] }),
    (7, .string ⟨[107], 3993778410⟩),
    (2, .table { array := [.table 3, .table 8] }),
    (6, .string ⟨[95, 95, 109, 111, 100, 101], 2995170092⟩),
    (10, .string ⟨[95, 95, 103, 99], 0⟩),
    (1, .thread {})]

theorem ephemeronHeap_quiescent : ephemeronHeap.Quiescent :=
  ⟨rfl, fun _ => rfl, rfl⟩

private theorem ephemeronHeap_finalizes :
    ¬ FinalizesUnreachable ephemeronHeap (ephemeronHeap.setCollecting true).collect := by
  have hlist : 4 ∈ (ephemeronHeap.setCollecting true).collect.gc.finalize := by
    decide
  have hglobals : ephemeronHeap.Reachable 2 :=
    .base ⟨by decide, by decide⟩
  have htable : ephemeronHeap.Reachable 3 := .edge hglobals (by decide)
  have hkey : ephemeronHeap.Reachable 8 := .edge hglobals (by decide)
  have hjoint : (3, 8, 4) ∈ ephemeronHeap.ephemerons := by decide
  exact fun h => h 4 hlist (.joint htable hkey hjoint)

/-- The table is finalized although its key is a global. -/
theorem fullGc_finalizes_ephemeron :
    ∃ L : State, L.Quiescent ∧ L.gc.collecting = false ∧
      L.fullGc (.ok ()) 14 =
        .ok () (((L.setCollecting true).collect.withPhase .pause).setCollecting
          false) ∧
      ¬ FinalizesUnreachable L (L.setCollecting true).collect :=
  ⟨ephemeronHeap, ephemeronHeap_quiescent, rfl,
    fullGc_eq (.ok ()) ephemeronHeap_quiescent rfl (by decide),
    ephemeronHeap_finalizes⟩

theorem fullGc_finalizes_unreachable_iff_ephemeronHeap :
    ¬ ∀ a, ephemeronHeap.Reachable a → ephemeronHeap.HasFinalizer a →
      ephemeronHeap.Traced a :=
  fun h => ephemeronHeap_finalizes ((fullGc_finalizes_unreachable_iff (.ok ())
    ephemeronHeap_quiescent rfl (by decide : 11 + 3 ≤ 14)).2.mpr h)

end State

end Luatier
