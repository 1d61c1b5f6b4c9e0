import Luatier.Gc.Barrier
import Luatier.Gc.MarkingFrame

/-!
# A sweep that does not scan the stacks again

Between the steps of a cycle the program changes its stacks without a barrier.
Whatever the stacks hold when the sweep begins, its marking ends with an empty
worklist, and what a marked table or another guarded object refers to is marked.
-/

namespace Luatier

open Tricolor

namespace State

variable {L L' : State}

/-! ## The marking loops -/

/-- What marking follows from here on, and what it followed from a guarded object. -/
def followed (L : State) (a : Addr) : List Addr :=
  if L.gc.marks.color a = .black then L.guardedReferences a else L.references a

theorem guardedReferences_subset_followed (L : State) (a : Addr) :
    L.guardedReferences a ⊆ L.followed a := by
  unfold followed
  split
  · exact List.Subset.refl _
  · exact L.guardedReferences_subset a

theorem Guarded.along (h : L.Guarded) : MarkingAlong L.followed L := by
  refine ⟨h.consistent, fun a ha b hb => ?_, h.unpainted, h.allocated,
    fun a ha => (if_neg ha).symm, fun a => ?_⟩
  · rw [followed, if_pos ha] at hb
    exact h.closed a ha b hb
  · unfold followed
    split
    · exact L.guardedReferences_subset a
    · exact List.Subset.refl _

theorem SettledAlong.guarded (h : SettledAlong L.followed L') (hgraph : SameGraph L L') :
    L'.Guarded := by
  refine ⟨h.consistent, fun a ha b hb => ?_, h.unpainted, h.allocated⟩
  rw [hgraph.guardedReferences] at hb
  exact h.blackClosed a ha b (L.guardedReferences_subset_followed a hb)

theorem Guarded.sameGraph (h : L.Guarded) (hgraph : SameGraph L L')
    (hmarks : L'.gc.marks = L.gc.marks) : L'.Guarded := by
  refine h.congr (fun a => ?_) hmarks hgraph.white hgraph.allocated
  rw [hgraph.guardedReferences]
  exact List.Subset.refl _

/-! ## The marking of a sweep -/

theorem clearDeadStacks_guarded (h : L.Guarded) : L.clearDeadStacks.Guarded := by
  have hone (a : Addr) {L : State} (h : L.Guarded) : (L.clearDeadStack a).Guarded := by
    refine h.congr (fun b => guardedReferences_updateCell (Or.inr fun o => ?_)) rfl rfl
      (L.allocated_updateCell a _)
    cases o with
    | thread th => exact Or.inr ⟨_, rfl⟩
    | _ => exact Or.inl rfl
  unfold clearDeadStacks
  induction L.rootThreads generalizing L with
  | nil => exact h
  | cons a threads ih => exact ih (hone a h)

structure SweepDrained (L M : State) : Prop where
  graph : SameGraph L.clearDeadStacks M
  guarded : M.Guarded
  gray : M.gc.marks.gray = []
  mono : ∀ a, L.gc.marks.Marked a → M.gc.marks.Marked a
  pending : ∀ a ∈ L.sweepPending, M.gc.marks.Marked a
  joint : ∀ {t k v}, (t, k, v) ∈ L.ephemerons → M.gc.marks.Marked t →
    M.gc.marks.Marked k → M.gc.marks.Marked v

theorem Guarded.sweepMarked (h : L.Guarded) : SweepDrained L L.sweepMarked := by
  have hclear := L.clearDeadStacks_cleared
  obtain ⟨hgraph, hset, hmarked⟩ := sweepMarked_along (clearDeadStacks_guarded h).along
  refine ⟨hgraph, hset.guarded hgraph, hset.gray,
    fun a ha => (hmarked a).mpr (.base (Or.inl ha)), fun a ha => ?_, fun hj ht hk => ?_⟩
  · exact (hmarked a).mpr (.base (Or.inr ((mem_sweepPending h.unpainted a).mp ha).1))
  · refine (hmarked _).mpr (.joint ((hmarked _).mp ht) ((hmarked _).mp hk) ?_)
    rw [hclear.ephemerons]
    exact hj

/-! ## What is left -/

theorem Guarded.sweepObjects_object? (h : L.Guarded) (a : Addr) :
    L.sweepObjects.object? a =
      if L.sweepMarked.gc.marks.Marked a then
        (L.sweepMarked.object? a).map (Object.mapTable L.sweepMarked.finalClear)
      else none :=
  object?_sweepObjects h.sweepMarked.guarded.unpainted h.sweepMarked.pending a

theorem sweepObjects_frame (L : State) :
    L.sweepObjects.main = L.main ∧ L.sweepObjects.tmNames = L.tmNames := by
  have hstacks : ∀ (threads : List Addr) (L : State),
      (threads.foldl clearDeadStack L).main = L.main ∧
        (threads.foldl clearDeadStack L).tmNames = L.tmNames := by
    intro threads
    induction threads with
    | nil => exact fun _ => ⟨rfl, rfl⟩
    | cons a threads ih => exact fun L => ih (L.clearDeadStack a)
  have hgraph := (separate_eq L.clearDeadStacks L.clearDeadStacks.heap).2.1
  have hclear : L.clearDeadStacks.main = L.main ∧ L.clearDeadStacks.tmNames = L.tmNames :=
    hstacks L.rootThreads L
  have hmarks := atomicMark_onlyMarks
    (L.clearDeadStacks.separate L.clearDeadStacks.heap).2 L.sweepPending
  have hmain : L.sweepMarked.main = L.main :=
    (hmarks.main.trans hgraph.main).trans hclear.1
  have hnames : L.sweepMarked.tmNames = L.tmNames :=
    (hmarks.data.tmNames.trans hgraph.tmNames).trans hclear.2
  rw [sweepObjects_eq]
  generalize L.sweepMarked = M at hmain hnames ⊢
  generalize L.sweepPending = pending
  exact ⟨hmain, hnames⟩

theorem Guarded.swept (h : L.Guarded) :
    L.sweepObjects.Guarded ∧ (∀ a, ¬ L.sweepObjects.gc.marks.Marked a) ∧
      L.sweepObjects.gc.phase = L.gc.phase := by
  have hgray := h.sweepMarked.gray
  have hphase : L.sweepMarked.gc.phase = L.gc.phase := by
    rw [L.sweepMarked_gc]
  rw [sweepObjects_eq]
  generalize L.sweepMarked = M at hgray hphase
  generalize L.sweepPending = pending
  have hunmarked : ∀ a, ¬ ((((M.clearWeakTables 2).clearWeakTables
      1).queueFinalizers pending).freeWhite.gc.marks.Marked a) := by
    rintro a (ha | ha) <;> simp [freeWhite] at ha
  have hnil : (((M.clearWeakTables 2).clearWeakTables
      1).queueFinalizers pending).freeWhite.gc.marks.gray = [] := hgray
  refine ⟨⟨⟨fun a => ?_, ?_⟩, fun a ha => absurd (Or.inr ha) (hunmarked a),
    fun _ _ => rfl, fun a ha => ?_⟩, hunmarked, hphase⟩
  · rw [hnil]
    constructor
    · intro ha
      exact absurd ha List.not_mem_nil
    · exact fun ha => absurd (Or.inl ha) (hunmarked a)
  · rw [hnil]
    exact List.nodup_nil
  · rw [hnil] at ha
    contradiction

end State

end Luatier
