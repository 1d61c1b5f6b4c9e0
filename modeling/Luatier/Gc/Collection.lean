import Luatier.Gc.MarkingFrame

/-!
# Whole collections

A collection that starts at rest frees exactly the cells that are not kept.
-/

namespace Luatier

open Tricolor

namespace State

variable {L L' : State}

theorem Reachable.allocated {a : Addr} (h : L.Reachable a) :
    L.heap.allocated a = true := by
  induction h with
  | base h => exact h.2
  | @edge b c _ hbc =>
      unfold strongReferences at hbc
      cases ho : L.object? b with
      | none => simp [ho] at hbc
      | some o =>
          rw [ho] at hbc
          exact (List.mem_filter.mp hbc).2
  | joint _ _ htkv =>
      exact (Heap.allocated_iff_mem _ _).mpr (ephemerons_allocated htkv)

/-! ## Clearing dead stack slots -/

theorem clearFrom_take (th : Thread) (start : Nat) :
    (th.clearFrom start).stack.take start = th.stack.take start := by
  by_cases h : start ≤ th.stack.length
  · simp [Thread.clearFrom, Nat.min_eq_left h]
  · have hlen : th.stack.length - start = 0 := by omega
    simp [Thread.clearFrom, hlen]

theorem clearFrom_getD (th : Thread) (start i : Nat) :
    (th.clearFrom start).stack.getD i .nil =
      if i < start then th.stack.getD i .nil else .nil := by
  simp only [Thread.clearFrom, List.getD_eq_getElem?_getD,
    List.getElem?_append, List.length_take, List.getElem?_take,
    List.getElem?_replicate]
  by_cases hi : i < start
  · by_cases hlen : i < th.stack.length
    · rw [if_pos (by omega), if_pos hi, if_pos hi]
    · rw [if_neg (by omega), if_neg (by omega), if_pos hi,
        List.getElem?_eq_none (by omega)]
  · rw [if_neg (by omega), if_neg hi]
    split <;> rfl

def clearCell (L : State) (a b : Addr) (o : Object) : Object :=
  if b = a then
    match o with
    | .thread th => .thread (th.clearFrom (L.stackLimit a th))
    | o => o
  else o

theorem clearDeadStack_eq (L : State) (a : Addr) :
    L.clearDeadStack a = { L with heap := L.heap.mapCells (L.clearCell a) } := rfl

theorem clearCell_data (L : State) (a b : Addr) (o : Object) :
    (L.clearCell a b o).data = o.data := by
  unfold clearCell
  split
  · cases o <;> rfl
  · rfl

theorem clearDeadStack_data (L : State) (a : Addr) :
    SameData L (L.clearDeadStack a) :=
  .of_mapCells L _ (L.clearCell_data a)

theorem object?_clearDeadStack (L : State) (a b : Addr) :
    (L.clearDeadStack a).object? b = (L.object? b).map (L.clearCell a b) :=
  Heap.object?_mapCells L.heap (L.clearCell a) b

theorem allocated_clearDeadStack (L : State) (a : Addr) :
    (L.clearDeadStack a).heap.allocated = L.heap.allocated := by
  funext b
  exact Heap.allocated_mapCells L.heap (L.clearCell a) b

theorem proto?_clearDeadStack (L : State) (a : Addr) :
    (L.clearDeadStack a).proto? = L.proto? := by
  funext b
  simp only [proto?, object?_clearDeadStack]
  cases L.object? b with
  | none => rfl
  | some o =>
      by_cases hb : b = a
      · simp only [Option.map_some, clearCell, hb, if_true]
        cases o <;> rfl
      · simp only [Option.map_some, clearCell, hb, if_false]

theorem closure?_clearDeadStack (L : State) (a : Addr) :
    (L.clearDeadStack a).closure? = L.closure? := by
  funext b
  simp only [closure?, object?_clearDeadStack]
  cases L.object? b with
  | none => rfl
  | some o =>
      by_cases hb : b = a
      · simp only [Option.map_some, clearCell, hb, if_true]
        cases o <;> rfl
      · simp only [Option.map_some, clearCell, hb, if_false]

theorem thread?_clearDeadStack (L : State) (a b : Addr) :
    (L.clearDeadStack a).thread? b = (L.thread? b).map fun th =>
      if b = a then th.clearFrom (L.stackLimit a th) else th := by
  simp only [thread?, object?_clearDeadStack]
  cases L.object? b with
  | none => rfl
  | some o =>
      by_cases hb : b = a
      · simp only [Option.map_some, clearCell, hb, if_true]
        cases o <;> rfl
      · simp only [Option.map_some, clearCell, hb, if_false, Option.map_id']

theorem stackLimit_clearDeadStack (L : State) (a b : Addr) (th : Thread)
    (start : Nat) :
    (L.clearDeadStack a).stackLimit b th = L.stackLimit b th ∧
      L.stackLimit b (th.clearFrom start) = L.stackLimit b th := by
  have hwater : ∀ th, (L.clearDeadStack a).luaFrameHighWater th =
      L.luaFrameHighWater th := by
    intro th
    simp only [luaFrameHighWater, proto?_clearDeadStack, closure?_clearDeadStack]
  constructor
  · simp only [stackLimit, hwater]
    rfl
  · rfl

theorem pointers_clearDeadStack (L : State) (a b : Addr) (o : Object) :
    (L.clearDeadStack a).pointers b (L.clearCell a b o) ⊆ L.pointers b o := by
  cases o with
  | upval uv =>
      have hcell : L.clearCell a b (.upval uv) = .upval uv := by
        unfold clearCell
        split <;> rfl
      rw [hcell]
      simp only [pointers]
      refine List.append_subset.mpr ⟨?_, List.subset_append_right _ _⟩
      refine List.Subset.trans ?_ (List.subset_append_left _ _)
      unfold upvalGet
      split
      · cases uv.thread with
        | none => simp
        | some c =>
            simp only [Option.bind_some, thread?_clearDeadStack]
            cases L.thread? c with
            | none => simp
            | some th =>
                simp only [Option.map_some]
                split
                · rw [clearFrom_getD]
                  split
                  · simp
                  · simp [TValue.asGc?]
                · simp
      · simp
  | thread th =>
      have hcell : ∃ th', L.clearCell a b (.thread th) = .thread th' ∧
          th'.hookFunc = th.hookFunc ∧ th'.frames = th.frames ∧
          L.stackLimit b th' = L.stackLimit b th ∧
          th'.stack.take (L.stackLimit b th) = th.stack.take (L.stackLimit b th) := by
        unfold clearCell
        by_cases hb : b = a
        · subst hb
          rw [if_pos rfl]
          exact ⟨_, rfl, rfl, rfl, rfl, clearFrom_take _ _⟩
        · rw [if_neg hb]
          exact ⟨th, rfl, rfl, rfl, rfl, rfl⟩
      obtain ⟨th', hcell, hhook, hframes, hlimit, htake⟩ := hcell
      rw [hcell]
      simp only [pointers, threadStack, (L.stackLimit_clearDeadStack a b th' 0).1,
        hlimit, htake, hhook, hframes]
      exact List.Subset.refl _
  | _ =>
      simp only [clearCell]
      split <;> exact List.Subset.refl _

theorem references_clearDeadStack (L : State) (a b : Addr) :
    (L.clearDeadStack a).references b ⊆ L.references b := by
  unfold references
  rw [object?_clearDeadStack, allocated_clearDeadStack]
  cases L.object? b with
  | none => simp
  | some o =>
      intro c hc
      obtain ⟨hc, halloc⟩ := List.mem_filter.mp hc
      exact List.mem_filter.mpr ⟨L.pointers_clearDeadStack a b o hc, halloc⟩

theorem ephemerons_clearDeadStack (L : State) (a : Addr) :
    (L.clearDeadStack a).ephemerons = L.ephemerons := by
  have hcell : ∀ (allocated : Addr → Bool) (cell : Addr × Object),
      cellEphemerons allocated (cell.1, L.clearCell a cell.1 cell.2) =
        cellEphemerons allocated cell := by
    rintro allocated ⟨b, o⟩
    simp only [clearCell]
    split
    · cases o <;> rfl
    · rfl
  unfold ephemerons
  rw [allocated_clearDeadStack, clearDeadStack_eq]
  simp only [Heap.mapCells, List.flatMap_map, hcell]

structure StacksCleared (L L' : State) : Prop where
  references : ∀ a, L'.references a ⊆ L.references a
  ephemerons : L'.ephemerons = L.ephemerons
  allocated : L'.heap.allocated = L.heap.allocated
  gc : L'.gc = L.gc
  data : SameData L L'

theorem clearDeadStack_cleared (L : State) (a : Addr) :
    StacksCleared L (L.clearDeadStack a) := by
  refine ⟨L.references_clearDeadStack a, L.ephemerons_clearDeadStack a,
    L.allocated_clearDeadStack a, rfl, L.clearDeadStack_data a⟩

theorem clearDeadStacks_cleared (L : State) :
    StacksCleared L L.clearDeadStacks := by
  have hfold : ∀ (threads : List Addr) (L : State),
      StacksCleared L (threads.foldl clearDeadStack L) := by
    intro threads
    induction threads with
    | nil =>
        exact fun L => ⟨fun _ => List.Subset.refl _, rfl, rfl, rfl, .refl L⟩
    | cons a threads ih =>
        intro L
        have h := L.clearDeadStack_cleared a
        have h' := ih (L.clearDeadStack a)
        exact ⟨fun b => List.Subset.trans (h'.references b) (h.references b),
          h'.ephemerons.trans h.ephemerons, h'.allocated.trans h.allocated,
          h'.gc.trans h.gc, h.data.trans h'.data⟩
  exact hfold L.rootThreads L

theorem StacksCleared.marking (h : StacksCleared L L') (hL : L.Marking) :
    L'.Marking := by
  refine ⟨?_, ?_, ?_, ?_⟩
  · rw [h.gc]
    exact hL.consistent
  · rw [h.gc]
    exact fun a ha b hb => hL.blackClosed a ha b (h.references a hb)
  · rw [h.gc]
    exact hL.unpainted
  · rw [h.gc, h.allocated]
    exact hL.allocated

theorem StacksCleared.painted (h : StacksCleared L L') (hL : L.Painted) : L'.Painted := by
  refine ⟨?_, ?_, ?_⟩
  · rw [h.gc]
    exact hL.consistent
  · rw [h.gc]
    exact hL.unpainted
  · rw [h.gc, h.allocated]
    exact hL.allocated

/-! ## The sweep -/

def sweepMarked (L : State) : State :=
  let s := L.clearDeadStacks.separate L.clearDeadStacks.heap
  s.2.atomicMark s.1

def sweepPending (L : State) : List Addr :=
  (L.clearDeadStacks.separate L.clearDeadStacks.heap).1

theorem sweepObjects_eq (L : State) : L.sweepObjects =
    (((L.sweepMarked.clearWeakTables 2).clearWeakTables 1).queueFinalizers
      L.sweepPending).freeWhite := rfl

theorem mem_sweepPending (hL : L.gc.marks.Unpainted L.gc.white) (a : Addr) :
    a ∈ L.sweepPending ↔ L.HasFinalizer a ∧ ¬ L.gc.marks.Marked a := by
  have hclear := L.clearDeadStacks_cleared
  rw [← hclear.gc] at hL
  rw [← hclear.data.hasFinalizer a, ← hclear.gc]
  unfold sweepPending
  rw [(separate_eq _ _).1]
  simp only [List.mem_map, List.mem_filter, Bool.and_eq_true, isWhite,
    beq_iff_eq, hL.isWhite_iff]
  constructor
  · rintro ⟨⟨b, o⟩, ⟨hmem, hwhite, hgc⟩, rfl⟩
    exact ⟨⟨o, hmem, hgc⟩, hwhite⟩
  · rintro ⟨⟨o, hmem, hgc⟩, hwhite⟩
    exact ⟨(a, o), ⟨hmem, hwhite, hgc⟩, rfl⟩

theorem sweepMarked_along {edges : Addr → List Addr}
    (hL : MarkingAlong edges L.clearDeadStacks) :
    SameGraph L.clearDeadStacks L.sweepMarked ∧ SettledAlong edges L.sweepMarked ∧
      ∀ a, L.sweepMarked.gc.marks.Marked a ↔
        Marks.Reached edges L.clearDeadStacks.ephemerons
          (fun b => L.gc.marks.Marked b ∨ L.HasFinalizer b) a := by
  have hclear := L.clearDeadStacks_cleared
  obtain ⟨hlist, hgraph, hgc⟩ :=
    separate_eq L.clearDeadStacks L.clearDeadStacks.heap
  have hset : MarkingAlong edges (L.clearDeadStacks.separate L.clearDeadStacks.heap).2 :=
    hL.sameGraph hgraph (by rw [hgc])
  have hpending : ∀ a ∈ L.sweepPending,
      (L.clearDeadStacks.separate L.clearDeadStacks.heap).2.heap.allocated a := by
    intro a ha
    rw [hgraph.allocated]
    unfold sweepPending at ha
    rw [hlist] at ha
    obtain ⟨cell, hcell, rfl⟩ := List.mem_map.mp ha
    exact (Heap.allocated_iff_mem _ _).mpr
      (List.mem_map_of_mem (List.mem_filter.mp hcell).1)
  obtain ⟨hatomic, hfinal, hmarked⟩ := atomicMark_along hset hpending
  refine ⟨hgraph.trans hatomic, hfinal, fun a => ?_⟩
  refine (hmarked a).trans ?_
  rw [hgraph.ephemerons, hgc, hclear.gc]
  have hunpainted := hL.unpainted
  rw [hclear.gc] at hunpainted
  have hbase : ∀ b, L.gc.marks.Marked b ∨ b ∈ L.sweepPending ↔
      L.gc.marks.Marked b ∨ L.HasFinalizer b := by
    intro b
    rw [mem_sweepPending hunpainted]
    by_cases hb : L.gc.marks.Marked b <;> simp [hb]
  simp only [hbase]

theorem sweepMarked_spec (hL : L.Marking) :
    SameGraph L.clearDeadStacks L.sweepMarked ∧ L.sweepMarked.Settled ∧
      ∀ a, L.sweepMarked.gc.marks.Marked a ↔
        Marks.Reached L.clearDeadStacks.references L.clearDeadStacks.ephemerons
          (fun b => L.gc.marks.Marked b ∨ L.HasFinalizer b) a := by
  obtain ⟨hgraph, hset, hmarked⟩ :=
    sweepMarked_along (L.clearDeadStacks_cleared.marking hL).along
  exact ⟨hgraph, hset.settled hgraph.references.symm, hmarked⟩

theorem sweepMarked_gc (L : State) :
    L.sweepMarked.gc = { L.gc with marks := L.sweepMarked.gc.marks } := by
  obtain ⟨-, -, hgc⟩ := separate_eq L.clearDeadStacks L.clearDeadStacks.heap
  have hatomic := (atomicMark_onlyMarks
    (L.clearDeadStacks.separate L.clearDeadStacks.heap).2 L.sweepPending).gc
  have hclear : ((L.clearDeadStacks.separate
      L.clearDeadStacks.heap).2.clearWeakTables 2).gc = L.gc :=
    hgc.trans L.clearDeadStacks_cleared.gc
  rw [hclear] at hatomic
  exact hatomic

def finalClear (L : State) (t : Table) : Table :=
  let t := if t.weakMode != 0 then t.clearWeakEntries L.deadValue 2 else t
  if t.weakMode != 0 then t.clearWeakEntries L.deadValue 1 else t

theorem object?_sweepObjects
    (hwhite : L.sweepMarked.gc.marks.Unpainted L.sweepMarked.gc.white)
    (hpending : ∀ a ∈ L.sweepPending, L.sweepMarked.gc.marks.Marked a) (a : Addr) :
    L.sweepObjects.object? a =
      if L.sweepMarked.gc.marks.Marked a then
        (L.sweepMarked.object? a).map (Object.mapTable L.sweepMarked.finalClear)
      else none := by
  rw [sweepObjects_eq]
  have hwhite : ((((L.sweepMarked.clearWeakTables 2).clearWeakTables
      1).queueFinalizers L.sweepPending).isWhite a) = true ↔
      ¬ L.sweepMarked.gc.marks.Marked a := by
    by_cases ha : a ∈ L.sweepPending
    · have hm := hpending a ha
      simp [isWhite, queueFinalizers, ha, hm, clearWeakTables]
    · rw [← hwhite.isWhite_iff a]
      simp [isWhite, queueFinalizers, ha, clearWeakTables]
  simp only [freeWhite, State.object?]
  rw [Heap.object?_filter _ (fun a => !((((L.sweepMarked.clearWeakTables
    2).clearWeakTables 1).queueFinalizers L.sweepPending).isWhite a))]
  by_cases hm : L.sweepMarked.gc.marks.Marked a
  · rw [if_pos (by simpa [hm] using hwhite), if_pos hm]
    simp only [queueFinalizers, clearWeakTables, Heap.object?_mapCells,
      Option.map_map]
    congr 1
    funext o
    cases o <;> rfl
  · rw [if_neg (by simpa [hm] using hwhite), if_neg hm]

theorem sweepObjects_object? (hL : L.Marking) (a : Addr) :
    L.sweepObjects.object? a =
      if L.sweepMarked.gc.marks.Marked a then
        (L.sweepMarked.object? a).map (Object.mapTable L.sweepMarked.finalClear)
      else none := by
  obtain ⟨-, hset, hmarked⟩ := sweepMarked_spec hL
  refine object?_sweepObjects hset.unpainted (fun b hb => ?_) a
  exact (hmarked b).mpr (.base (Or.inr ((mem_sweepPending hL.unpainted b).mp hb).1))

/-! ## From rest to the sweep -/

def markPhase (L : State) : State :=
  ((L.clearGray.markRoots.withPhase .propagate).propagateAll
    L.heap.length).withPhase .sweep

def collect (L : State) : State := L.markPhase.sweepObjects

theorem withPhase_sameGraph (L : State) (phase : GcPhase) :
    SameGraph L (L.withPhase phase) := ⟨rfl, rfl⟩

theorem setCollecting_sameGraph (L : State) (collecting : Bool) :
    SameGraph L (L.setCollecting collecting) := ⟨rfl, rfl⟩

theorem markPhase_spec (hL : L.Quiescent) :
    SameGraph L L.markPhase ∧ L.markPhase.Settled ∧
      ∀ a, L.markPhase.gc.marks.Marked a ↔ L.Traced a := by
  have hunmarked : ∀ a, ¬ L.clearGray.gc.marks.Marked a := by
    intro a ha
    have hw : L.clearGray.gc.marks.color a = .white L.gc.white := hL.white a
    rcases ha with ha | ha <;> rw [hw] at ha <;> contradiction
  have hstart : L.clearGray.Marking := by
    refine ⟨⟨fun a => ?_, List.nodup_nil⟩, fun a ha => ?_, fun a _ => hL.white a,
      fun a ha => ?_⟩
    · constructor
      · intro ha
        exact absurd ha List.not_mem_nil
      · exact fun ha => absurd (Or.inl ha) (hunmarked a)
    · exact absurd (Or.inr ha) (hunmarked a)
    · exact absurd ha List.not_mem_nil
  have hroots := hstart.along.withShaded
    (l := L.roots.filter L.heap.allocated) (fun _ ha => (List.mem_filter.mp ha).2)
  have hmark : L.clearGray.markRoots = L.clearGray.withMarks
      (L.clearGray.gc.marks.shadeAll (L.roots.filter L.heap.allocated)) :=
    markAll_eq L.clearGray L.roots
  rw [← hmark] at hroots
  have hgraph₁ : SameGraph L (L.clearGray.markRoots.withPhase .propagate) := by
    rw [hmark]
    exact ⟨rfl, rfl⟩
  have hmarking := hroots.sameGraph
    (L.clearGray.markRoots.withPhase_sameGraph .propagate) rfl
  obtain ⟨hgraph₂, hset, hmarked⟩ := propagateAll_along hmarking L.heap.length
    (by rw [hgraph₁.length])
  have hgraph₃ := withPhase_sameGraph
    ((L.clearGray.markRoots.withPhase .propagate).propagateAll L.heap.length)
    .sweep
  have hgraph := (hgraph₁.trans hgraph₂).trans hgraph₃
  have hsettled : SettledAlong L.clearGray.references L.markPhase :=
    ⟨hset.toMarkingAlong.sameGraph hgraph₃ rfl, hset.gray⟩
  refine ⟨hgraph, hsettled.settled hgraph.references.symm, fun a => ?_⟩
  refine (hmarked a).trans ?_
  have hbase : ∀ r, (L.clearGray.markRoots.withPhase
      .propagate).gc.marks.Marked r ↔ r ∈ L.roots ∧ L.heap.allocated r := by
    intro r
    rw [hmark]
    refine Marks.marked_shadeAll.trans ?_
    rw [List.mem_filter]
    exact or_iff_right (hunmarked r)
  simp only [hbase, and_assoc]
  rfl

theorem markPhase_data (L : State) : SameData L L.markPhase := by
  have hmark : SameData L (L.clearGray.markRoots.withPhase .propagate) := by
    rw [markRoots, markAll_eq]
    exact ⟨rfl, rfl, rfl⟩
  exact (hmark.trans (propagateAll_onlyMarks _ _).data).trans ⟨rfl, rfl, rfl⟩

/-! ## The survivors -/

theorem SameGraph.stackLimit (h : SameGraph L L') (a : Addr) (th : Thread) :
    L'.stackLimit a th = L.stackLimit a th := by
  have hwater : L'.luaFrameHighWater th = L.luaFrameHighWater th := by
    have hobject : L'.traced.object? = L.traced.object? := by
      funext b
      rw [object?_traced, object?_traced, h.object?]
    have hproto : L'.traced.proto? = L.traced.proto? := by
      funext b
      simp only [proto?, hobject]
    have hclosure : L'.traced.closure? = L.traced.closure? := by
      funext b
      simp only [closure?, hobject]
    rw [← luaFrameHighWater_traced L', ← luaFrameHighWater_traced L]
    simp only [luaFrameHighWater, hproto, hclosure]
  simp only [State.stackLimit, hwater, h.current]

theorem SameGraph.clearDeadStack (h : SameGraph L L') (a : Addr) :
    SameGraph (L.clearDeadStack a) (L'.clearDeadStack a) := by
  have hcell : ∀ b o, (L'.clearCell a b o).trace = L.clearCell a b o.trace := by
    intro b o
    by_cases hb : b = a
    · simp only [clearCell, hb, if_true]
      cases o with
      | thread th => simp only [Object.trace, h.stackLimit]
      | _ => rfl
    · simp only [clearCell, hb, if_false]
  have hcell' : ∀ b o, (L.clearCell a b o).trace = L.clearCell a b o.trace := by
    intro b o
    by_cases hb : b = a
    · simp only [clearCell, hb, if_true]
      cases o <;> rfl
    · simp only [clearCell, hb, if_false]
  refine ⟨?_, ?_⟩
  · rw [clearDeadStack_eq, clearDeadStack_eq, h.frame]
  · rw [clearDeadStack_eq, clearDeadStack_eq]
    have hcommute : ∀ (h : Heap) (f : Addr → Object → Object),
        (∀ b o, (f b o).trace = L.clearCell a b o.trace) →
        (h.mapCells f).mapCells (fun _ => Object.trace) =
          (h.mapCells fun _ => Object.trace).mapCells (L.clearCell a) := by
      intro h f hf
      simp only [Heap.mapCells, List.map_map, Function.comp_def, hf]
    rw [hcommute _ _ hcell, hcommute _ _ hcell', h.heap]

theorem SameGraph.clearDeadStacks (h : SameGraph L L') :
    SameGraph L.clearDeadStacks L'.clearDeadStacks := by
  have hfold : ∀ (threads : List Addr) {L L' : State}, SameGraph L L' →
      SameGraph (threads.foldl State.clearDeadStack L)
        (threads.foldl State.clearDeadStack L') := by
    intro threads
    induction threads with
    | nil => exact fun h => h
    | cons a threads ih => exact fun h => ih (h.clearDeadStack a)
  have hroots : L'.rootThreads = L.rootThreads := by
    simp only [rootThreads, h.main, h.current]
  unfold State.clearDeadStacks
  rw [hroots]
  exact hfold L.rootThreads h

theorem collect_marked (hL : L.Quiescent) (a : Addr) :
    L.markPhase.sweepMarked.gc.marks.Marked a ↔ L.Kept a := by
  obtain ⟨hgraph, hset, hmarked⟩ := markPhase_spec hL
  obtain ⟨-, -, hsweep⟩ := sweepMarked_spec hset.toMarking
  rw [hsweep, hgraph.clearDeadStacks.references,
    hgraph.clearDeadStacks.ephemerons]
  simp only [hmarked, L.markPhase_data.hasFinalizer]
  rfl

theorem collect_object? (hL : L.Quiescent) (a : Addr) :
    (L.Kept a → L.collect.object? a = (L.markPhase.sweepMarked.object? a).map
      (Object.mapTable L.markPhase.sweepMarked.finalClear)) ∧
    (¬ L.Kept a → L.collect.object? a = none) := by
  obtain ⟨-, hset, -⟩ := markPhase_spec hL
  rw [← collect_marked hL, collect, sweepObjects_object? hset.toMarking]
  exact ⟨fun h => if_pos h, fun h => if_neg h⟩

theorem sweepMarked_sameGraph (hL : L.Quiescent) :
    SameGraph L.clearDeadStacks L.markPhase.sweepMarked := by
  obtain ⟨hgraph, hset, -⟩ := markPhase_spec hL
  exact hgraph.clearDeadStacks.trans (sweepMarked_spec hset.toMarking).1

theorem collect_allocated (hL : L.Quiescent) (a : Addr) :
    L.collect.heap.allocated a = true ↔ L.heap.allocated a = true ∧ L.Kept a := by
  have halloc : L.markPhase.sweepMarked.heap.allocated = L.heap.allocated := by
    rw [(sweepMarked_sameGraph hL).allocated, L.clearDeadStacks_cleared.allocated]
  obtain ⟨hkept, hfreed⟩ := collect_object? hL a
  by_cases ha : L.Kept a
  · have hobject : L.collect.heap.allocated a =
        L.markPhase.sweepMarked.heap.allocated a := by
      have := congrArg Option.isSome (hkept ha)
      simp only [Option.isSome_map] at this
      exact this
    rw [hobject, halloc]
    simp [ha]
  · have hobject : L.collect.heap.allocated a = false := by
      have := congrArg Option.isSome (hfreed ha)
      exact this
    simp [hobject, ha]

end State

end Luatier
