import Luatier.Gc.CollectionSafety
import Luatier.Gc.IncrementalSafety

/-!
# Lists of open upvalues

A thread links its open upvalues, and `find_upval` and `close_upvals` walk the
list.  The roots include the lists of the main and of the current thread;
`propagate_one` does not mark the list of any other.  A linked upvalue survives
only if something else that is kept, a closure, still holds it.
-/

namespace Luatier

open Tricolor

namespace State

variable {L L' : State}

/-- No list of a surviving thread is left with a freed upvalue. -/
structure OpenUpvalsKept (L L' : State) : Prop where
  linked : ∀ a th u, L'.thread? a = some th → u ∈ th.openUpvals →
    L.heap.allocated u = true → L'.heap.allocated u = true
  slot : ∀ u uv a th, L'.upval? u = some uv → uv.isOpen = true →
    uv.thread = some a → L.thread? a = some th →
    uv.stackIndex < th.stack.length →
    ∃ th', L'.thread? a = some th' ∧ uv.stackIndex < th'.stack.length

/-- An object that is kept refers to it, or an ephemeron with a key that is kept. -/
def Held (L : State) (edges : Addr → List Addr) (kept : Addr → Prop) (u : Addr) : Prop :=
  (∃ b, kept b ∧ u ∈ edges b) ∨
    ∃ t k, kept t ∧ kept k ∧ (t, k, u) ∈ L.clearDeadStacks.ephemerons

/-- No upvalue is orphaned that is linked in the list of a kept thread of some kind. -/
def ListsHeld (L : State) (kind kept : Addr → Prop) (held : Addr → Prop) : Prop :=
  ∀ a th u, kind a → kept a → L.thread? a = some th → u ∈ th.openUpvals →
    L.heap.allocated u = true → held u

/--
The sweep finds the upvalue marked, or follows a reference to it from what it keeps.
(The collector calls no finalizer of an upvalue.)
-/
def HeldInSweep (L : State) (u : Addr) : Prop :=
  (L.gc.marks.Marked u ∨ L.HasFinalizer u) ∨
    L.Held L.clearDeadStacks.unscanned L.SweepKept u

/-- The same for a collection from rest: marking comes by the upvalue. -/
def HeldAtRest (L : State) (u : Addr) : Prop :=
  (L.Traced u ∨ L.HasFinalizer u) ∨ L.Held L.clearDeadStacks.references L.Kept u

theorem sweepKept_iff_held (u : Addr) : L.SweepKept u ↔ L.HeldInSweep u :=
  Derives.iff_source

theorem kept_iff_held (u : Addr) : L.Kept u ↔ L.HeldAtRest u := Derives.iff_source

theorem allocated_of_thread? {a : Addr} {th : Thread} (h : L.thread? a = some th) :
    L.heap.allocated a = true :=
  Option.isSome_iff_exists.mpr ⟨_, thread?_eq_some.mp h⟩

theorem allocated_of_upval? {a : Addr} {uv : UpVal} (h : L.upval? a = some uv) :
    L.heap.allocated a = true :=
  Option.isSome_iff_exists.mpr ⟨_, upval?_eq_some.mp h⟩

theorem openUpvalsKept_congr {L'' : State} (h : L''.heap = L'.heap) :
    OpenUpvalsKept L L'' ↔ OpenUpvalsKept L L' := by
  have hthread : L''.thread? = L'.thread? := by
    funext a
    simp only [thread?, object?, h]
  have hupval : L''.upval? = L'.upval? := by
    funext a
    simp only [upval?, object?, h]
  constructor
  · rintro ⟨hlinked, hslot⟩
    rw [hthread, h] at hlinked
    rw [hthread, hupval] at hslot
    exact ⟨hlinked, hslot⟩
  · rintro ⟨hlinked, hslot⟩
    rw [← hthread, ← h] at hlinked
    rw [← hthread, ← hupval] at hslot
    exact ⟨hlinked, hslot⟩

/-! ## Threads and upvalues under a collection -/

theorem upval?_traced (L : State) (a : Addr) : L.traced.upval? a = L.upval? a := by
  simp only [upval?, object?_traced]
  cases L.object? a with
  | none => rfl
  | some o => cases o <;> rfl

theorem SameGraph.traced_object? (h : SameGraph L L') :
    L'.traced.object? = L.traced.object? := by
  funext b
  rw [object?_traced, object?_traced, h.object?]

theorem SameGraph.thread? (h : SameGraph L L') (a : Addr) :
    L'.thread? a = L.thread? a := by
  rw [← L'.thread?_traced, ← L.thread?_traced]
  simp only [State.thread?, h.traced_object?]

theorem SameGraph.upval? (h : SameGraph L L') (a : Addr) :
    L'.upval? a = L.upval? a := by
  rw [← L'.upval?_traced, ← L.upval?_traced]
  simp only [State.upval?, h.traced_object?]

def Thread.slots (th : Thread) : List Addr × Nat := (th.openUpvals, th.stack.length)

theorem slots_clearFrom (th : Thread) (start : Nat) :
    Thread.slots (th.clearFrom start) = Thread.slots th := by
  have hlen : (th.clearFrom start).stack.length = th.stack.length := by
    simp only [Thread.clearFrom, List.length_append, List.length_take,
      List.length_replicate]
    omega
  exact Prod.ext rfl hlen

theorem slots_clearDeadStack (L : State) (a b : Addr) :
    ((L.clearDeadStack a).thread? b).map Thread.slots =
      (L.thread? b).map Thread.slots := by
  rw [thread?_clearDeadStack, Option.map_map]
  congr 1
  funext th
  simp only [Function.comp_apply]
  split
  · exact slots_clearFrom th _
  · rfl

theorem upval?_clearDeadStack (L : State) (a b : Addr) :
    (L.clearDeadStack a).upval? b = L.upval? b := by
  simp only [upval?, object?_clearDeadStack]
  cases L.object? b with
  | none => rfl
  | some o =>
      by_cases hb : b = a
      · simp only [Option.map_some, clearCell, hb, if_true]
        cases o <;> rfl
      · simp only [Option.map_some, clearCell, hb, if_false]

theorem clearDeadStacks_slots (L : State) (a : Addr) :
    L.clearDeadStacks.upval? a = L.upval? a ∧
      (L.clearDeadStacks.thread? a).map Thread.slots =
        (L.thread? a).map Thread.slots := by
  have hfold : ∀ (threads : List Addr) (L : State),
      (threads.foldl clearDeadStack L).upval? a = L.upval? a ∧
        ((threads.foldl clearDeadStack L).thread? a).map Thread.slots =
          (L.thread? a).map Thread.slots := by
    intro threads
    induction threads with
    | nil => exact fun L => ⟨rfl, rfl⟩
    | cons b threads ih =>
        intro L
        obtain ⟨hupval, hthread⟩ := ih (L.clearDeadStack b)
        exact ⟨hupval.trans (L.upval?_clearDeadStack b a),
          hthread.trans (L.slots_clearDeadStack b a)⟩
  exact hfold L.rootThreads L

/-- `L'` holds the kept cells of `L`; its threads are as their dead slots were cleared. -/
structure CollectedTo (L L' : State) (kept : Addr → Prop) : Prop where
  allocated : ∀ a, L'.heap.allocated a = true ↔
    L.heap.allocated a = true ∧ kept a
  thread : ∀ a, kept a → L'.thread? a = L.clearDeadStacks.thread? a
  upval : ∀ a, kept a → L'.upval? a = L.upval? a
  pinned : ∀ u uv a, kept u → L.upval? u = some uv → uv.isOpen = true →
    uv.thread = some a → L.heap.allocated a = true → kept a

theorem CollectedTo.slots {kept : Addr → Prop} (h : CollectedTo L L' kept) {a : Addr}
    (ha : kept a) : (L'.thread? a).map Thread.slots = (L.thread? a).map Thread.slots := by
  rw [h.thread a ha]
  exact (L.clearDeadStacks_slots a).2

theorem CollectedTo.openUpvalsKept_iff {kept : Addr → Prop}
    (h : CollectedTo L L' kept) :
    OpenUpvalsKept L L' ↔ L.ListsHeld (fun _ => True) kept kept := by
  constructor
  · intro hkept a th u _ ha hth hu halloc
    have hslots := h.slots ha
    rw [hth, Option.map_some, Option.map_eq_some_iff] at hslots
    obtain ⟨th', hth', hslots⟩ := hslots
    have hopen : th'.openUpvals = th.openUpvals := congrArg Prod.fst hslots
    have hu' := hkept.linked a th' u hth' (hopen ▸ hu) halloc
    exact ((h.allocated u).mp hu').2
  · intro hlists
    refine ⟨fun a th' u hth' hu halloc => ?_,
      fun u uv a th huv hopen hthread hth hslot => ?_⟩
    · have ha := ((h.allocated a).mp (allocated_of_thread? hth')).2
      have hslots := h.slots ha
      rw [hth', Option.map_some, eq_comm, Option.map_eq_some_iff] at hslots
      obtain ⟨th, hth, hslots⟩ := hslots
      have hopen : th.openUpvals = th'.openUpvals := congrArg Prod.fst hslots
      exact (h.allocated u).mpr
        ⟨halloc, hlists a th u trivial ha hth (hopen ▸ hu) halloc⟩
    · have hu := ((h.allocated u).mp (allocated_of_upval? huv)).2
      rw [h.upval u hu] at huv
      have ha := h.pinned u uv a hu huv hopen hthread (allocated_of_thread? hth)
      have hslots := h.slots ha
      rw [hth, Option.map_some, Option.map_eq_some_iff] at hslots
      obtain ⟨th', hth', hslots⟩ := hslots
      have hlen : th'.stack.length = th.stack.length := congrArg Prod.snd hslots
      exact ⟨th', hth', hlen.symm ▸ hslot⟩

theorem pinned_of_clearDeadStacks {kept : Addr → Prop}
    (hedge : ∀ a b, kept a → b ∈ L.clearDeadStacks.references a → kept b)
    {u a : Addr} {uv : UpVal} (hu : kept u) (huv : L.upval? u = some uv)
    (hopen : uv.isOpen = true) (hthread : uv.thread = some a)
    (halloc : L.heap.allocated a = true) : kept a := by
  refine hedge u a hu ?_
  rw [← L.clearDeadStacks_cleared.allocated] at halloc
  rw [← (L.clearDeadStacks_slots u).1] at huv
  simp [references, upval?_eq_some.mp huv, pointers, hopen, hthread, halloc]

theorem mapTable_slots {L M : State} {a : Addr} {f : Table → Table}
    (h : L.object? a = (M.object? a).map (Object.mapTable f)) :
    L.thread? a = M.thread? a ∧ L.upval? a = M.upval? a := by
  simp only [thread?, upval?, h]
  cases M.object? a with
  | none => exact ⟨rfl, rfl⟩
  | some o => cases o <;> exact ⟨rfl, rfl⟩

/-- A black open upvalue has its thread marked, also when the sweep does not scan it again. -/
theorem Guarded.pinned (hL : L.Guarded) {u a : Addr} {uv : UpVal} (hu : L.SweepKept u)
    (huv : L.upval? u = some uv) (hopen : uv.isOpen = true) (hthread : uv.thread = some a)
    (halloc : L.heap.allocated a = true) : L.SweepKept a := by
  have hclear := L.clearDeadStacks_cleared
  obtain ⟨-, -, hmarked⟩ := hL.painted.sweepMarked
  have hdrained := hL.sweepMarked
  have hblack : L.sweepMarked.gc.marks.color u = .black := by
    rcases (hmarked u).mpr hu with hgray | hblack
    · have hmem := (hdrained.guarded.consistent.mem_gray u).mpr hgray
      rw [hdrained.gray] at hmem
      contradiction
    · exact hblack
  have huv' : L.sweepMarked.upval? u = some uv := by
    rw [hdrained.graph.upval?, (L.clearDeadStacks_slots u).1]
    exact huv
  have halloc' : L.sweepMarked.heap.allocated a = true := by
    rw [hdrained.graph.allocated, hclear.allocated]
    exact halloc
  refine (hmarked a).mp (hdrained.guarded.marked_of_pointers (upval?_eq_some.mp huv') hblack
    ?_ halloc')
  simp [guardedPointers, Object.guarded, Object.pins, hopen, hthread]

theorem sweepObjects_collectedTo (hL : L.Guarded) :
    CollectedTo L L.sweepObjects L.SweepKept := by
  obtain ⟨hgraph, -, -⟩ := hL.painted.sweepMarked
  have hobject : ∀ a, L.SweepKept a → L.sweepObjects.object? a =
      (L.sweepMarked.object? a).map (Object.mapTable L.sweepMarked.finalClear) :=
    fun a => (hL.painted.sweepObjects_object? a).1
  refine ⟨sweepObjects_allocated hL.painted, fun a ha => ?_, fun a ha => ?_,
    fun u uv a => hL.pinned⟩
  · rw [(mapTable_slots (hobject a ha)).1, hgraph.thread?]
  · rw [(mapTable_slots (hobject a ha)).2, hgraph.upval?]
    exact (L.clearDeadStacks_slots a).1

theorem collect_collectedTo (hL : L.Quiescent) :
    CollectedTo L L.collect L.Kept := by
  have hgraph := sweepMarked_sameGraph hL
  refine ⟨collect_allocated hL, fun a ha => ?_, fun a ha => ?_,
    fun u uv a => pinned_of_clearDeadStacks fun _ _ => .edge⟩
  · rw [(mapTable_slots ((collect_object? hL a).1 ha)).1, hgraph.thread?]
  · rw [(mapTable_slots ((collect_object? hL a).1 ha)).2, hgraph.upval?]
    exact (L.clearDeadStacks_slots a).1

theorem kept_of_rootThread {a u : Addr} {th : Thread} (ha : a ∈ L.rootThreads)
    (hth : L.thread? a = some th) (hu : u ∈ th.openUpvals)
    (halloc : L.heap.allocated u = true) : L.Kept u := by
  refine .base (Or.inl ⟨u, ?_, halloc, .refl⟩)
  simp only [roots, List.mem_append, List.mem_flatMap]
  exact Or.inl (Or.inl (Or.inr ⟨a, ha, by simp [threadRoots, hth, hu]⟩))

theorem sweep_openUpvalsKept_iff (hL : L.Guarded) :
    OpenUpvalsKept L L.sweepObjects ↔
      L.ListsHeld (fun _ => True) L.SweepKept L.HeldInSweep := by
  rw [(sweepObjects_collectedTo hL).openUpvalsKept_iff]
  simp only [ListsHeld, ← sweepKept_iff_held]

theorem collect_openUpvalsKept_iff (hL : L.Quiescent) :
    OpenUpvalsKept L L.collect ↔
      L.ListsHeld (· ∉ L.rootThreads) L.Kept L.HeldAtRest := by
  rw [(collect_collectedTo hL).openUpvalsKept_iff]
  simp only [ListsHeld, ← kept_iff_held]
  constructor
  · exact fun h a th u _ => h a th u trivial
  · intro h a th u _ ha hth hu halloc
    by_cases hroot : a ∈ L.rootThreads
    · exact kept_of_rootThread hroot hth hu halloc
    · exact h a th u hroot ha hth hu halloc

theorem listsHeld_setCollecting (L : State) (collecting : Bool) :
    (L.setCollecting collecting).ListsHeld (· ∉ L.rootThreads)
      (L.setCollecting collecting).Kept (L.setCollecting collecting).HeldAtRest ↔
    L.ListsHeld (· ∉ L.rootThreads) L.Kept L.HeldAtRest := by
  simp only [ListsHeld, ← kept_iff_held, kept_setCollecting]
  rfl

end State

namespace Config

variable {c c' : Config}

/--
The globals hold a suspended coroutine; the closure over its local variable is
gone, and the open upvalue is still linked.
-/
def suspendedHeap : State where
  main := some 1
  current := some 1
  globals := some 2
  heap := [(4, .upval { thread := some 3 }),
    (3, .thread
      { stack := [.boolean true, .nil]
        frames := [{ cl := some 5, proto := some 6 }]
        openUpvals := [4]
        top := 2 }),
    (5, .closure { proto := some 6 }),
    (6, .proto { maxstack := 2 }),
    (2, .table { array := [.thread 3] }),
    (1, .thread {})]

private theorem suspendedHeap_quiescent : suspendedHeap.Quiescent :=
  ⟨rfl, fun _ => rfl, rfl⟩

private theorem suspendedHeap_dangles :
    ¬ State.OpenUpvalsKept suspendedHeap
      (suspendedHeap.setCollecting true).collect := by
  intro h
  have hkept := h.linked 3
    { stack := [.boolean true, .nil]
      frames := [{ cl := some 5, proto := some 6 }]
      openUpvals := [4]
      top := 2 } 4 (by decide) (by decide) (by decide)
  have hfreed : (suspendedHeap.setCollecting true).collect.heap.allocated 4 =
      false := by decide
  rw [hfreed] at hkept
  contradiction

private def suspendedConfig : Config :=
  (Config.mk suspendedHeap []).collectStep.collectStep.collectStep.collectStep
    |>.collectStep.collectStep.collectStep

private theorem suspendedConfig_orderly :
    Relation.ReflTransGen OrderlyStep ⟨suspendedHeap, []⟩ suspendedConfig := by
  have hstep : ∀ c : Config, c.running = true → c.state.gc.phase ≠ .sweep →
      OrderlyStep c c.collectStep := fun c hrun hphase =>
    ⟨.collectStep, fun h => absurd h (by simp [Config.sweeps, hphase]),
      by simp [Config.step, hrun]⟩
  refine .tail (.tail (.tail (.tail (.tail (.tail (.tail .refl
    (hstep _ ?_ ?_)) (hstep _ ?_ ?_)) (hstep _ ?_ ?_)) (hstep _ ?_ ?_))
    (hstep _ ?_ ?_)) (hstep _ ?_ ?_)) (hstep _ ?_ ?_)
  all_goals decide

end Config

end Luatier
