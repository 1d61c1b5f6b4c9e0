import Luatier.Gc.GuardedSweep
import Luatier.Gc.MarkingFrame
import Luatier.Lib.Machine

/-!
# Safety of incremental collection

A sweep does not scan the roots and the stacks again, and it is entered with
an unmarked heap when a finalizer of the sweep before it asks for a step.  In
runs without such sweeps no reachable object is freed.
-/

namespace Luatier

open Tricolor

namespace State

variable {L L' : State}

/-! ## One sweep -/

theorem Guarded.painted (h : L.Guarded) : L.Painted :=
  ⟨h.consistent, h.unpainted, h.allocated⟩

/--
With the dead slots cleared, on a path of references that are still to be followed, and
of ephemerons, from an object that is marked when the sweep starts or has a finalizer.
-/
def SweepKept (L : State) : Addr → Prop :=
  Marks.Reached L.clearDeadStacks.unscanned L.clearDeadStacks.ephemerons
    fun a => L.gc.marks.Marked a ∨ L.HasFinalizer a

theorem Painted.sweepMarked (h : L.Painted) :
    SameGraph L.clearDeadStacks L.sweepMarked ∧
      SettledAlong L.clearDeadStacks.unscanned L.sweepMarked ∧
      ∀ a, L.sweepMarked.gc.marks.Marked a ↔ L.SweepKept a :=
  sweepMarked_along (L.clearDeadStacks_cleared.painted h).along

theorem Painted.sweepObjects_object? (h : L.Painted) (a : Addr) :
    (L.SweepKept a → L.sweepObjects.object? a = (L.sweepMarked.object? a).map
      (Object.mapTable L.sweepMarked.finalClear)) ∧
    (¬ L.SweepKept a → L.sweepObjects.object? a = none) := by
  obtain ⟨-, hset, hmarked⟩ := h.sweepMarked
  have hobject := object?_sweepObjects hset.unpainted (fun b hb => (hmarked b).mpr
    (.base (Or.inr ((mem_sweepPending h.unpainted b).mp hb).1))) a
  rw [← hmarked, hobject]
  exact ⟨fun ha => if_pos ha, fun ha => if_neg ha⟩

theorem sweepObjects_allocated (hL : L.Painted) (a : Addr) :
    L.sweepObjects.heap.allocated a = true ↔
      L.heap.allocated a = true ∧ L.SweepKept a := by
  obtain ⟨hgraph, -, -⟩ := hL.sweepMarked
  obtain ⟨hkept, hfreed⟩ := hL.sweepObjects_object? a
  have halloc : L.sweepMarked.heap.allocated a = L.heap.allocated a := by
    rw [hgraph.allocated, L.clearDeadStacks_cleared.allocated]
  rw [← halloc]
  change (L.sweepObjects.object? a).isSome = true ↔
    (L.sweepMarked.object? a).isSome = true ∧ _
  by_cases ha : L.SweepKept a
  · rw [hkept ha, Option.isSome_map]
    exact ⟨fun h => ⟨h, ha⟩, And.left⟩
  · rw [hfreed ha]
    exact ⟨fun h => absurd h (by simp), fun h => absurd h.2 ha⟩

structure SweepScanned (L : State) : Prop where
  roots : ∀ a ∈ L.rootObjects, L.heap.allocated a = true → L.gc.marks.Marked a
  rescanned : ∀ a o, L.object? a = some o → o.guarded = false →
    L.gc.marks.color a = .black → ∀ b ∈ L.references a, L.gc.marks.Marked b

/-- A sweep for which scanning the roots and the stacks again would mark nothing. -/
structure SweepReady (L : State) : Prop where
  roots : ∀ a ∈ L.rootObjects, L.heap.allocated a = true → L.gc.marks.Marked a
  rescanned : ∀ a o, L.object? a = some o → o.guarded = false →
    L.gc.marks.color a = .black → ∀ b ∈ L.references a, L.gc.marks.Marked b
  untraced : ∀ a b, L.Reachable a → b ∈ L.strongReferences a →
    b ∉ L.clearDeadStacks.references a → L.SweepKept b

theorem SweepReady.scanned (h : L.SweepReady) : L.SweepScanned :=
  ⟨h.roots, h.rescanned⟩

theorem SweepScanned.marking (h : L.SweepScanned) (hL : L.Guarded) :
    L.Marking := by
  refine ⟨hL.consistent, fun a ha b hb => ?_, hL.unpainted, hL.allocated⟩
  cases ho : L.object? a with
  | none => simp [references, ho] at hb
  | some o =>
      cases hg : o.guarded with
      | true =>
          refine hL.closed a ha b ?_
          rw [guardedReferences_of_guarded ho, hg]
          exact hb
      | false => exact h.rescanned a o ho hg ha b hb

theorem SweepReady.kept (h : L.SweepReady) (hL : L.Guarded) {a : Addr}
    (ha : L.Reachable a) : L.SweepKept a := by
  have hclear := L.clearDeadStacks_cleared
  induction ha with
  | base hroot => exact .base (Or.inl (h.roots _ hroot.1 hroot.2))
  | @edge a b ha hab ih =>
      by_cases htraced : b ∈ L.clearDeadStacks.references a
      · by_cases hblack : L.gc.marks.color a = .black
        · exact .base (Or.inl ((h.scanned.marking hL).blackClosed a hblack b
            (hclear.references a htraced)))
        · refine .edge ih ?_
          rw [unscanned, hclear.gc, if_neg hblack]
          exact htraced
      · exact h.untraced a b ha hab htraced
  | joint _ _ htkv iht ihk =>
      refine .joint iht ihk ?_
      rw [hclear.ephemerons]
      exact htkv

/-! ## The other steps of a cycle -/

theorem Guarded.markRoots (h : L.Guarded)
    (hrest : ∀ a, ¬ L.gc.marks.Marked a) :
    L.clearGray.markRoots.Guarded ∧ L.clearGray.markRoots.main = L.main ∧
      L.clearGray.markRoots.heap = L.heap := by
  have hclear : L.clearGray.Guarded := by
    refine ⟨⟨fun a => ?_, List.nodup_nil⟩,
      fun a ha => absurd (Or.inr ha) (hrest a), h.unpainted, fun a ha => ?_⟩
    · constructor
      · intro ha
        exact absurd ha List.not_mem_nil
      · exact fun ha => absurd (Or.inl ha) (hrest a)
    · exact absurd ha List.not_mem_nil
  rw [State.markRoots, markAll_eq]
  exact ⟨hclear.withShaded fun a ha => (List.mem_filter.mp ha).2, rfl, rfl⟩

theorem Guarded.propagateOne (h : L.Guarded) : L.propagateOne.Guarded := by
  obtain ⟨hgraph, hmarks⟩ := propagateOne_scan L
  refine ⟨?_, fun a ha b hb => ?_, ?_, fun a ha => ?_⟩
  · rw [hmarks]
    exact h.consistent.scan
  · rw [hgraph.guardedReferences] at hb
    rw [hmarks] at ha ⊢
    exact h.closed.scan_of_subset h.consistent L.guardedReferences_subset a ha b hb
  · rw [hmarks, hgraph.white]
    exact h.unpainted.scan h.consistent _
  · rw [hgraph.allocated]
    rw [hmarks] at ha
    have hgray := (h.consistent.scan.mem_gray a).mp ha
    rcases (Marks.marked_scan h.consistent).mp (Or.inl hgray) with
      (hg | hb) | ⟨c, -, hc⟩
    · exact h.allocated a ((h.consistent.mem_gray a).mpr hg)
    · rw [Marks.black_scan.mpr (Or.inl hb)] at hgray
      contradiction
    · exact (Heap.allocated_iff_mem _ _).mpr (references_allocated hc)

end State

/-! ## Runs -/

def Control.isFinalizers : Control → Bool
  | .finalizers _ => true
  | _ => false

namespace Config

variable {c c' : Config}

/-- The finalizers of a sweep have not returned yet. -/
def finalizing (c : Config) : Prop := 0 < c.control.countP Control.isFinalizers

instance (c : Config) : Decidable c.finalizing :=
  inferInstanceAs (Decidable (0 < _))

/--
An event that an unmarked reference cannot slip through: a sweep finds the
roots and the stacks scanned, and a table that ceases to be weak is marked.
-/
def Covered (c : Config) : Event → Prop
  | .act x => c.state.Covered x
  | e => c.sweeps e = true → c.state.SweepReady

def CoveredStep (c c' : Config) : Prop :=
  ∃ e, c.Covered e ∧ c.step e = some c'

def Scanned (c : Config) : Event → Prop
  | .act x => c.state.Covered x
  | e => c.sweeps e = true → c.state.SweepScanned

def ScannedStep (c c' : Config) : Prop :=
  ∃ e, c.Scanned e ∧ c.step e = some c'

theorem Covered.scanned {e : Event} (h : c.Covered e) : c.Scanned e := by
  cases e with
  | act x => exact h
  | _ => exact fun hs => (h hs).scanned

/-- The program starts with the collector at rest. -/
structure Start (c : Config) : Prop where
  control : c.control = []
  quiescent : c.state.Quiescent
  gray : c.state.gc.marks.gray = []
  main : ∃ m, c.state.main = some m ∧ c.state.heap.allocated m = true

/--
What holds in every configuration of a scanned run.  While finalizers run,
the phase is still that of their sweep and no object is marked.
-/
structure Inv (c : Config) : Prop where
  guarded : c.state.Guarded
  pause : c.state.gc.phase = .pause → ∀ a, ¬ c.state.gc.marks.Marked a
  finalizing : c.finalizing →
    c.state.gc.phase = .sweep ∧ ∀ a, ¬ c.state.gc.marks.Marked a
  single : c.control.countP Control.isFinalizers ≤ 1
  main : ∃ m, c.state.main = some m ∧ c.state.heap.allocated m = true

theorem Start.inv (h : c.Start) : c.Inv := by
  have hrest : ∀ a, ¬ c.state.gc.marks.Marked a := by
    rintro a (ha | ha) <;> rw [h.quiescent.white a] at ha <;> contradiction
  refine ⟨⟨⟨fun a => ?_, ?_⟩, fun a ha => absurd (Or.inr ha) (hrest a),
    fun a _ => h.quiescent.white a, fun a ha => ?_⟩, fun _ => hrest,
    fun hf => ?_, ?_, h.main⟩
  · rw [h.gray]
    constructor
    · intro ha
      exact absurd ha List.not_mem_nil
    · exact fun ha => absurd (Or.inl ha) (hrest a)
  · rw [h.gray]
    exact List.nodup_nil
  · rw [h.gray] at ha
    contradiction
  · unfold Config.finalizing at hf
    rw [h.control] at hf
    contradiction
  · rw [h.control]
    exact Nat.zero_le _

theorem Inv.not_finalizing (h : c.Inv) (hscan : c.state.SweepScanned) :
    ¬ c.finalizing := by
  intro hf
  obtain ⟨m, hm, halloc⟩ := h.main
  refine (h.finalizing hf).2 m (hscan.roots m ?_ halloc)
  simp [State.rootObjects, State.rootThreads, hm]

/-! ## Cycles -/

/--
What holds in every configuration of a run in which no finalizer asks for a
sweep.  While finalizers run, the phase is still that of their sweep and no
object is marked.
-/
structure Cycle (c : Config) : Prop where
  guarded : c.state.Guarded
  pause : c.state.gc.phase = .pause → ∀ a, ¬ c.state.gc.marks.Marked a
  finalizing : c.finalizing →
    c.state.gc.phase = .sweep ∧ ∀ a, ¬ c.state.gc.marks.Marked a
  single : c.control.countP Control.isFinalizers ≤ 1

theorem Cycle.congr (h : c.Cycle) (L : State) (control : List Control)
    (hheap : L.heap = c.state.heap)
    (hmarks : L.gc.marks = c.state.gc.marks)
    (hwhite : L.gc.white = c.state.gc.white)
    (hphase : L.gc.phase = c.state.gc.phase)
    (hcontrol : control.countP Control.isFinalizers =
      c.control.countP Control.isFinalizers) :
    Cycle ⟨L, control⟩ := by
  refine ⟨h.guarded.congr (State.guardedReferences_congr hheap) hmarks hwhite
    (by rw [hheap]), ?_, ?_, ?_⟩
  · simp only [hmarks, hphase]
    exact h.pause
  · unfold Config.finalizing
    simp only [hmarks, hphase, hcontrol]
    exact h.finalizing
  · simp only [hcontrol]
    exact h.single

theorem Cycle.collectStep (h : c.Cycle)
    (hsweep : c.state.gc.phase = .sweep → ¬ c.finalizing) : c.collectStep.Cycle := by
  have hother : c.state.gc.phase ≠ .sweep → ¬ c.finalizing :=
    fun hphase hf => hphase (h.finalizing hf).1
  unfold Config.collectStep
  cases hphase : c.state.gc.phase with
  | pause =>
      have hnot := hother (by simp [hphase])
      obtain ⟨hg, -, -⟩ := h.guarded.markRoots (h.pause hphase)
      simp only [State.step, hphase]
      refine ⟨hg.congr (State.guardedReferences_congr rfl) rfl rfl rfl,
        fun hp => ?_, fun hf => absurd hf hnot, h.single⟩
      contradiction
  | propagate =>
      have hnot := hother (by simp [hphase])
      simp only [State.step, hphase]
      by_cases hgray : c.state.gc.marks.gray = []
      · simp only [hgray, if_true]
        refine ⟨h.guarded.congr (State.guardedReferences_congr rfl) rfl rfl rfl,
          fun hp => ?_, fun hf => absurd hf hnot, h.single⟩
        contradiction
      · simp only [hgray, if_false]
        refine ⟨h.guarded.propagateOne, fun hp => ?_, fun hf => absurd hf hnot, h.single⟩
        rw [State.propagateOne_phase, hphase] at hp
        contradiction
  | sweep =>
      have hnot := hsweep hphase
      obtain ⟨hg, hrest, hswept⟩ := h.guarded.swept
      simp only
      generalize c.state.sweepObjects = L at *
      split
      · exact ⟨hg.congr (State.guardedReferences_congr rfl) rfl rfl rfl,
          fun _ => hrest, fun hf => absurd hf hnot, h.single⟩
      · refine ⟨hg.congr (State.guardedReferences_congr rfl) rfl rfl rfl,
          fun _ => hrest, fun _ => ⟨hswept.trans hphase, hrest⟩, ?_⟩
        unfold Config.finalizing at hnot
        rw [List.countP_cons]
        simp only [Control.isFinalizers, if_true]
        omega

theorem Cycle.finalizersDone (h : c.Cycle) (L : State) (rest : List Control)
    {pending : List Addr} {control : List Control}
    (hc : c.control = .finalizers pending :: control)
    (hrest : rest.countP Control.isFinalizers ≤
      control.countP Control.isFinalizers)
    (hcolor : L.gc.marks.color = c.state.gc.marks.color)
    (hgray : L.gc.marks.gray = [] ∨ L.gc.marks.gray = c.state.gc.marks.gray)
    (hwhite : L.gc.white = c.state.gc.white) :
    Cycle ⟨L, rest⟩ := by
  have hf : c.finalizing := by
    unfold Config.finalizing
    rw [hc]
    simp [Control.isFinalizers]
  have hunmarked : ∀ a, ¬ L.gc.marks.Marked a := by
    intro a ha
    refine (h.finalizing hf).2 a ?_
    simpa only [Marks.Marked, hcolor] using ha
  have hnone : control.countP Control.isFinalizers = 0 := by
    have hsingle := h.single
    rw [hc, List.countP_cons_of_pos rfl] at hsingle
    omega
  have hnil : ∀ a, a ∉ L.gc.marks.gray := by
    intro a ha
    rcases hgray with hgray | hgray
    · rw [hgray] at ha
      contradiction
    · rw [hgray] at ha
      exact (h.finalizing hf).2 a
        (Or.inl ((h.guarded.consistent.mem_gray a).mp ha))
  refine ⟨⟨⟨fun a => ⟨fun ha => absurd ha (hnil a),
    fun ha => absurd (Or.inl ha) (hunmarked a)⟩, ?_⟩,
    fun a ha => absurd (Or.inr ha) (hunmarked a), fun a ha => ?_,
    fun a ha => absurd ha (hnil a)⟩, fun _ => hunmarked, fun hf' => ?_, ?_⟩
  · rw [List.eq_nil_iff_forall_not_mem.mpr hnil]
    exact List.nodup_nil
  · simp only [hcolor, hwhite]
    exact h.guarded.unpainted a fun ha' => (h.finalizing hf).2 a ha'
  · unfold Config.finalizing at hf'
    simp only at hf'
    omega
  · simp only
    omega

theorem Cycle.act (h : c.Cycle) {x : Action} (hcov : c.state.Covered x)
    (hstep : c.step (.act x) = some c') : c'.Cycle := by
  simp only [Config.step, Option.ite_none_right_eq_some] at hstep
  obtain ⟨L', hact, rfl⟩ := Option.map_eq_some_iff.mp hstep.2
  have hp := h.guarded.act hcov hact
  refine ⟨hp.guarded, fun hpause => ?_, fun hf => ?_, h.single⟩
  · exact hp.resting (h.pause (hp.phase ▸ hpause))
  · obtain ⟨hphase, hrest⟩ := h.finalizing hf
    exact ⟨hp.phase.trans hphase, hp.resting hrest⟩

/-- The first turn of `full_gc` after the cycle in progress starts another one. -/
theorem collectStep_of_pause (hpause : c.state.gc.phase = .pause) :
    c.collectStep =
      { c with state := c.state.clearGray.markRoots.withPhase .propagate } := by
  simp only [Config.collectStep, State.step, hpause]

theorem Cycle.turn (h : c.Cycle) (hsweep : c.sweeps .turn = true → ¬ c.finalizing)
    (hstep : c.step .turn = some c') : c'.Cycle := by
  simp only [Config.step] at hstep
  have hsweeps : ∀ {k rest}, c.control = k :: rest → k.isFinalizers = false →
      c.state.gc.phase = .sweep → ¬ c.finalizing := by
    intro k rest hc hk hphase
    refine hsweep ?_
    cases k with
    | finalizers pending => contradiction
    | finish => simp [Config.sweeps, Config.running, hc, hphase]
    | cycle => simp [Config.sweeps, Config.running, hc, hphase]
  split at hstep
  · rename_i rest hc
    split at hstep
    · rename_i hpause
      obtain rfl := Option.some.inj hstep
      have hgray : c.state.gc.marks.gray = [] := by
        refine List.eq_nil_iff_forall_not_mem.mpr fun a ha => ?_
        exact h.pause hpause a
          (Or.inl ((h.guarded.consistent.mem_gray a).mp ha))
      have hmarks : c.state.clearGray.gc.marks = c.state.gc.marks := by
        simp only [State.clearGray, State.withMarks, ← hgray]
      have hclear : Cycle ⟨c.state.clearGray, rest⟩ :=
        h.congr _ _ rfl hmarks rfl rfl (by rw [hc]; rfl)
      have hphase : (Config.mk c.state.clearGray rest).state.gc.phase = .pause := hpause
      have hnext := hclear.collectStep fun hs => by
        rw [hphase] at hs
        contradiction
      refine hnext.congr _ _ rfl rfl rfl rfl ?_
      rw [collectStep_of_pause hphase]
      rfl
    · obtain rfl := Option.some.inj hstep
      exact h.collectStep (hsweeps hc rfl)
  · rename_i rest hc
    split at hstep
    · obtain rfl := Option.some.inj hstep
      exact h.congr _ _ rfl rfl rfl rfl (by rw [hc]; rfl)
    · obtain rfl := Option.some.inj hstep
      exact h.collectStep (hsweeps hc rfl)
  · contradiction

theorem startFinalizer_guarded {L : State} (h : L.Guarded) (a : Addr) :
    (L.startFinalizer a).Guarded ∧
      (L.startFinalizer a).gc.marks = L.gc.marks ∧
      (L.startFinalizer a).gc.phase = L.gc.phase := by
  unfold State.startFinalizer State.getMetamethod
  generalize hF : ({ L with gc := { L.gc with
    finalized := Function.update L.gc.finalized a true } } : State) = F
  have hflag : F.Guarded := by
    rw [← hF]
    exact h.congr (State.guardedReferences_congr rfl) rfl rfl rfl
  obtain ⟨hgraph, hgc⟩ := F.getTm_sameGraph
    (F.getMetatable (F.gcObjectValue a)) .gc
  refine ⟨hflag.sameGraph hgraph (by rw [hgc]), ?_, ?_⟩
  · rw [hgc, ← hF]
  · rw [hgc, ← hF]

theorem Cycle.finalize (h : c.Cycle) (hstep : c.step .finalize = some c') :
    c'.Cycle := by
  simp only [Config.step] at hstep
  split at hstep
  · rename_i a pending rest hc
    obtain rfl := Option.some.inj hstep
    obtain ⟨hg, hmarks, hphase⟩ := startFinalizer_guarded h.guarded a
    refine ⟨hg, ?_, ?_, ?_⟩
    · simp only [hmarks, hphase]
      exact h.pause
    · unfold Config.finalizing
      simp only [hmarks, hphase]
      intro hf
      refine h.finalizing ?_
      unfold Config.finalizing
      rw [hc]
      exact hf
    · have hsingle := h.single
      rw [hc] at hsingle
      exact hsingle
  · contradiction

theorem Cycle.finalizersReturn (h : c.Cycle)
    (hstep : c.step .finalizersReturn = some c') : c'.Cycle := by
  simp only [Config.step] at hstep
  split at hstep
  · rename_i rest hc
    obtain rfl := Option.some.inj hstep
    exact h.finalizersDone _ _ hc (Nat.le_refl _) rfl (Or.inr rfl) rfl
  · contradiction

theorem abandoned_fields (L : State) :
    let L' := (((L.setRunningFinalizer false).setCollecting
      false).withPhase .pause).clearGray
    L'.gc.marks.color = L.gc.marks.color ∧ L'.gc.marks.gray = [] ∧
      L'.gc.white = L.gc.white ∧ State.Unswept L L' := by
  simp only [State.clearGray, State.withMarks, State.withPhase,
    State.setCollecting, State.setRunningFinalizer, true_and]
  exact .of_heap rfl rfl rfl

theorem Cycle.finalizersRaise (h : c.Cycle)
    (hstep : c.step .finalizersRaise = some c') : c'.Cycle := by
  obtain ⟨hcolor, hgray, hwhite, -⟩ := abandoned_fields c.state
  simp only [Config.step] at hstep
  generalize (((c.state.setRunningFinalizer false).setCollecting
    false).withPhase .pause).clearGray = L at *
  split at hstep
  · rename_i rest hc
    obtain rfl := Option.some.inj hstep
    exact h.finalizersDone _ _ hc (by simp [Control.isFinalizers]) hcolor
      (Or.inl hgray) hwhite
  · rename_i rest hc
    obtain rfl := Option.some.inj hstep
    exact h.finalizersDone _ _ hc (by simp [Control.isFinalizers]) hcolor
      (Or.inl hgray) hwhite
  · rename_i rest _ _ hc
    obtain rfl := Option.some.inj hstep
    exact h.finalizersDone _ _ hc (Nat.le_refl _) rfl (Or.inr rfl) rfl
  · contradiction

theorem Cycle.step (h : c.Cycle) {e : Event}
    (hcov : ∀ x, e = .act x → c.state.Covered x)
    (hsweep : c.sweeps e = true → ¬ c.finalizing)
    (hstep : c.step e = some c') : c'.Cycle := by
  cases e with
  | act x => exact h.act (hcov x rfl) hstep
  | collectStep =>
      simp only [Config.step, Option.ite_none_right_eq_some] at hstep
      obtain ⟨hrun, hstep⟩ := hstep
      obtain rfl := Option.some.inj hstep
      exact h.collectStep fun hphase => hsweep (by simp [Config.sweeps, hrun, hphase])
  | collectFull =>
      simp only [Config.step] at hstep
      split at hstep
      · contradiction
      split at hstep
      · obtain rfl := Option.some.inj hstep
        exact h
      · obtain rfl := Option.some.inj hstep
        exact h.congr _ _ rfl rfl rfl rfl rfl
  | turn => exact h.turn hsweep hstep
  | finalize => exact h.finalize hstep
  | finalizersReturn => exact h.finalizersReturn hstep
  | finalizersRaise => exact h.finalizersRaise hstep

/-- No table that was scanned ceases to be weak unnoticed, and no finalizer asks for a sweep. -/
def Orderly (c : Config) : Event → Prop
  | .act x => c.state.Covered x
  | e => c.sweeps e = true → ¬ c.finalizing

def OrderlyStep (c c' : Config) : Prop :=
  ∃ e, c.Orderly e ∧ c.step e = some c'

theorem Start.cycle {c₀ : Config} (h₀ : c₀.Start)
    (hrun : Relation.ReflTransGen OrderlyStep c₀ c) : c.Cycle := by
  have hinv := h₀.inv
  have hkeeps : ∀ {c c' : Config}, c.Cycle → OrderlyStep c c' → c'.Cycle := by
    rintro c c' h ⟨e, horder, hstep⟩
    refine h.step (fun x hx => ?_) (fun hs => ?_) hstep
    · rw [hx] at horder
      exact horder
    · cases e with
      | act x => simp [Config.sweeps] at hs
      | _ => exact horder hs
  exact Machine.invariant_of_path Cycle hkeeps
    ⟨hinv.guarded, hinv.pause, hinv.finalizing, hinv.single⟩ hrun

/-! ## What the steps of the collector leave alone -/

theorem startFinalizer_unswept (L : State) (a : Addr) :
    State.Unswept L (L.startFinalizer a) := by
  unfold State.startFinalizer State.getMetamethod
  generalize hF : ({ L with gc := { L.gc with
    finalized := Function.update L.gc.finalized a true } } : State) = F
  have hflag : State.Unswept L F := by
    rw [← hF]
    exact .of_heap rfl rfl rfl
  exact hflag.trans (F.getTm_unswept _ .gc)

theorem collectStep_unswept (hphase : c.state.gc.phase ≠ .sweep) :
    State.Unswept c.state c.collectStep.state := by
  unfold Config.collectStep State.step
  cases hp : c.state.gc.phase with
  | pause =>
      refine .of_heap ?_ ?_ ?_ <;>
        simp only [State.withPhase, State.markRoots, State.markAll_eq] <;> rfl
  | propagate =>
      by_cases hgray : c.state.gc.marks.gray = []
      · simp only [hgray, if_true]
        exact .of_heap rfl rfl rfl
      · simp only [hgray, if_false]
        exact (State.propagateOne_onlyMarks c.state).unswept
  | sweep => exact absurd hp hphase

theorem step_unswept {e : Event} (hact : ∀ x, e ≠ .act x)
    (hsweep : c.sweeps e = false) (hstep : c.step e = some c') :
    State.Unswept c.state c'.state := by
  cases e with
  | act x => exact absurd rfl (hact x)
  | collectStep =>
      simp only [Config.step, Option.ite_none_right_eq_some] at hstep
      obtain ⟨hrun, hstep⟩ := hstep
      obtain rfl := Option.some.inj hstep
      exact collectStep_unswept fun hphase => by
        simp [Config.sweeps, hrun, hphase] at hsweep
  | collectFull =>
      simp only [Config.step] at hstep
      split at hstep
      · contradiction
      split at hstep <;> obtain rfl := Option.some.inj hstep
      · exact .refl _
      · exact .of_heap rfl rfl rfl
  | turn =>
      have hphase : c.running = false → c.state.gc.phase ≠ .sweep :=
        fun hrun hphase => by simp [Config.sweeps, hrun, hphase] at hsweep
      simp only [Config.step] at hstep
      split at hstep
      · rename_i rest hc
        split at hstep
        · rename_i hpause
          obtain rfl := Option.some.inj hstep
          have hclear : State.Unswept c.state c.state.clearGray := .of_heap rfl rfl rfl
          have hstart : State.Unswept c.state.clearGray
              (Config.mk c.state.clearGray rest).collectStep.state := by
            refine collectStep_unswept (c := ⟨c.state.clearGray, rest⟩) fun hs => ?_
            have hs' : c.state.gc.phase = .sweep := hs
            rw [hpause] at hs'
            contradiction
          exact hclear.trans hstart
        · obtain rfl := Option.some.inj hstep
          exact collectStep_unswept (hphase (by simp [Config.running, hc]))
      · rename_i rest hc
        split at hstep <;> obtain rfl := Option.some.inj hstep
        · exact .of_heap rfl rfl rfl
        · exact collectStep_unswept (hphase (by simp [Config.running, hc]))
      · contradiction
  | finalize =>
      simp only [Config.step] at hstep
      split at hstep
      · obtain rfl := Option.some.inj hstep
        exact startFinalizer_unswept c.state _
      · contradiction
  | finalizersReturn =>
      simp only [Config.step] at hstep
      split at hstep
      · obtain rfl := Option.some.inj hstep
        exact .of_heap rfl rfl rfl
      · contradiction
  | finalizersRaise =>
      obtain ⟨-, -, -, hstate⟩ := abandoned_fields c.state
      simp only [Config.step] at hstep
      generalize (((c.state.setRunningFinalizer false).setCollecting
        false).withPhase .pause).clearGray = L at *
      split at hstep
      · obtain rfl := Option.some.inj hstep
        exact hstate
      · obtain rfl := Option.some.inj hstep
        exact hstate
      · obtain rfl := Option.some.inj hstep
        exact .of_heap rfl rfl rfl
      · contradiction

theorem collectStep_swept (hphase : c.state.gc.phase = .sweep) :
    State.Unswept c.state.sweepObjects c.collectStep.state := by
  unfold Config.collectStep
  simp only [hphase]
  generalize c.state.sweepObjects = L
  split
  · exact .of_heap rfl rfl rfl
  · exact .of_heap rfl rfl rfl

theorem step_swept {e : Event} (hsweep : c.sweeps e = true)
    (hstep : c.step e = some c') : State.Unswept c.state.sweepObjects c'.state := by
  cases e with
  | collectStep =>
      simp only [Config.sweeps, Bool.and_eq_true, beq_iff_eq] at hsweep
      simp only [Config.step, hsweep.1, if_true] at hstep
      obtain rfl := Option.some.inj hstep
      exact collectStep_swept hsweep.2
  | turn =>
      simp only [Config.sweeps, Bool.and_eq_true, beq_iff_eq] at hsweep
      have hpause : c.state.gc.phase ≠ .pause := by
        rw [hsweep.2]
        simp
      simp only [Config.step, hpause, if_false] at hstep
      split at hstep
      · obtain rfl := Option.some.inj hstep
        exact collectStep_swept hsweep.2
      · obtain rfl := Option.some.inj hstep
        exact collectStep_swept hsweep.2
      · contradiction
  | _ => simp [Config.sweeps] at hsweep

theorem heap_of_sweeps {e : Event} (hsweeps : c.sweeps e = true)
    (hstep : c.step e = some c') : c'.state.heap = c.state.sweepObjects.heap := by
  have hcollect : c.state.gc.phase = .sweep →
      c.collectStep.state.heap = c.state.sweepObjects.heap := by
    intro hphase
    simp only [Config.collectStep, hphase]
    split <;> rfl
  cases e with
  | collectStep =>
      simp only [sweeps, Bool.and_eq_true, beq_iff_eq] at hsweeps
      simp only [Config.step, hsweeps.1, if_true, Option.some.injEq] at hstep
      rw [← hstep]
      exact hcollect hsweeps.2
  | turn =>
      simp only [sweeps, Bool.and_eq_true, beq_iff_eq] at hsweeps
      have hpause : c.state.gc.phase ≠ .pause := by simp [hsweeps.2]
      simp only [Config.step, hpause, if_false] at hstep
      split at hstep
      · rw [← Option.some.inj hstep]
        exact hcollect hsweeps.2
      · rw [← Option.some.inj hstep]
        exact hcollect hsweeps.2
      · contradiction
  | _ => contradiction

/-! ## Scanned runs -/

def Survives (c : Config) (sweeping : Prop) (a : Addr) : Prop :=
  c.state.heap.allocated a = true ∧ (sweeping → c.state.SweepKept a)

theorem Inv.cycle (h : c.Inv) : c.Cycle :=
  ⟨h.guarded, h.pause, h.finalizing, h.single⟩

theorem Inv.step (h : c.Inv) {e : Event} (hscan : c.Scanned e)
    (hstep : c.step e = some c') :
    c'.Inv ∧ ∀ a, c.Survives (c.sweeps e = true) a →
      c'.state.heap.allocated a = true := by
  obtain ⟨m, hm, halloc⟩ := h.main
  have hcov : ∀ x, e = .act x → c.state.Covered x := by
    rintro x rfl
    exact hscan
  have hswept : c.sweeps e = true → c.state.SweepScanned := by
    intro hs
    cases e with
    | act x => simp [Config.sweeps] at hs
    | _ => exact hscan hs
  have hcycle := h.cycle.step hcov (fun hs => h.not_finalizing (hswept hs)) hstep
  obtain ⟨hmain, hsurvive⟩ : c'.state.main = c.state.main ∧
      ∀ a, c.Survives (c.sweeps e = true) a → c'.state.heap.allocated a = true := by
    by_cases hs : c.sweeps e = true
    · have hstate := step_swept hs hstep
      refine ⟨hstate.main.trans c.state.sweepObjects_frame.1, fun a ha => ?_⟩
      rw [hstate.allocated]
      exact (State.sweepObjects_allocated h.guarded.painted a).mpr
        ⟨ha.1, ha.2 hs⟩
    · cases e with
      | act x =>
          simp only [Config.step, Option.ite_none_right_eq_some] at hstep
          obtain ⟨L', hact, rfl⟩ := Option.map_eq_some_iff.mp hstep.2
          have hp := h.guarded.act hscan hact
          exact ⟨hp.main, fun a ha => hp.allocated a ha.1⟩
      | _ =>
          have hstate := step_unswept (by simp) (Bool.eq_false_iff.mpr hs) hstep
          refine ⟨hstate.main, fun a ha => ?_⟩
          rw [hstate.allocated]
          exact ha.1
  refine ⟨⟨hcycle.guarded, hcycle.pause, hcycle.finalizing, hcycle.single, m,
    hmain.trans hm, hsurvive m ⟨halloc, fun hs => .base (Or.inl ?_)⟩⟩, hsurvive⟩
  refine (hswept hs).roots m ?_ halloc
  simp [State.rootObjects, State.rootThreads, hm]

theorem Start.inv_of_scanned {c₀ : Config} (h₀ : c₀.Start)
    (hrun : Relation.ReflTransGen ScannedStep c₀ c) : c.Inv := by
  have hkeeps : ∀ {c c' : Config}, c.Inv → ScannedStep c c' → c'.Inv := by
    rintro c c' h ⟨e, hscan, hstep⟩
    exact (h.step hscan hstep).1
  exact Machine.invariant_of_path Inv hkeeps h₀.inv hrun

/-- No reachable object is freed in a run of covered events. -/
theorem incremental_safe {c₀ : Config} (h₀ : c₀.Start)
    (hrun : Relation.ReflTransGen CoveredStep c₀ c) {e : Event}
    (hcov : c.Covered e) (hstep : c.step e = some c') {a : Addr}
    (ha : c.state.Reachable a) : c'.state.heap.allocated a = true := by
  have hscanned : Relation.ReflTransGen ScannedStep c₀ c :=
    hrun.lift id fun _ _ ⟨e, hcov, hstep⟩ => ⟨e, hcov.scanned, hstep⟩
  have hinv := h₀.inv_of_scanned hscanned
  refine (hinv.step hcov.scanned hstep).2 a ⟨ha.allocated, fun hsweeps => ?_⟩
  cases e with
  | act x => simp [Config.sweeps] at hsweeps
  | _ => exact (hcov hsweeps).kept hinv.guarded ha

/-! ## Sweeps that are not ready -/

def finalizerConfig : Config where
  state :=
    { main := some 1
      current := some 1
      globals := some 2
      strings := [4]
      tmNames := [none, none, some 4]
      heap := [(3, .table { metatable := some 5 }),
        (5, .table { hash := [⟨.string 4, .function 6, true⟩] }),
        (6, .closure {}),
        (4, .string ⟨[95, 95, 103, 99], 0⟩),
        (2, .table {}),
        (1, .thread { stack := [.table 2], top := 1 })] }

private theorem finalizerConfig_start : finalizerConfig.Start :=
  ⟨rfl, ⟨rfl, fun _ => rfl, rfl⟩, rfl, ⟨1, rfl, by decide⟩⟩

private theorem coveredStep_of_phase {c : Config} (hrun : c.running = true)
    (hphase : c.state.gc.phase ≠ .sweep) : CoveredStep c c.collectStep :=
  ⟨.collectStep, fun h => absurd h (by simp [Config.sweeps, hphase]),
    by simp [Config.step, hrun]⟩

theorem sweepScanned_of_cells {L : State}
    (hroots : L.rootObjects.all (fun a => decide (L.gc.marks.Marked a)) = true)
    (hstacks : L.heap.all (fun cell => cell.2.guarded ||
      (L.references cell.1).all fun b => decide (L.gc.marks.Marked b)) = true) :
    L.SweepScanned := by
  simp only [List.all_eq_true, decide_eq_true_eq, Bool.or_eq_true] at hroots hstacks
  refine ⟨fun a ha _ => hroots a ha, fun a o ho hg _ b hb => ?_⟩
  have hcell := hstacks (a, o) (Heap.mem_of_object? ho)
  simp only [hg, Bool.false_eq_true, false_or] at hcell
  exact hcell b hb

private theorem sweepReady_of_cells {L : State} (hscan : L.SweepScanned)
    (htraced : L.heap.all (fun cell => (L.strongReferences cell.1).all
      fun b => (L.clearDeadStacks.references cell.1).contains b) = true) :
    L.SweepReady := by
  simp only [List.all_eq_true, List.contains_eq_mem, decide_eq_true_eq] at htraced
  refine ⟨hscan.roots, hscan.rescanned, fun a b _ hb hnot => ?_⟩
  cases ho : L.object? a with
  | none => simp [State.strongReferences, ho] at hb
  | some o => exact absurd (htraced (a, o) (Heap.mem_of_object? ho) b hb) hnot

/-- The sweep of a program that did nothing since the roots were marked. -/
private def settledConfig : Config :=
  finalizerConfig.collectStep.collectStep.collectStep.collectStep.collectStep

theorem incremental_safe_settledConfig :
    settledConfig.collectStep.state.heap.allocated 2 = true := by
  have hrun : Relation.ReflTransGen CoveredStep finalizerConfig settledConfig := by
    refine .tail (.tail (.tail (.tail (.tail .refl
      (coveredStep_of_phase ?_ ?_)) (coveredStep_of_phase ?_ ?_))
      (coveredStep_of_phase ?_ ?_)) (coveredStep_of_phase ?_ ?_))
      (coveredStep_of_phase ?_ ?_)
    all_goals decide
  have hcov : settledConfig.Covered .collectStep := fun _ =>
    sweepReady_of_cells (sweepScanned_of_cells (by decide)
      (by decide)) (by decide)
  exact incremental_safe finalizerConfig_start hrun hcov rfl
    (.base ⟨by decide, by decide⟩)

def newTable : List Event :=
  List.replicate 5 .collectStep ++
    [.act (.create 7 (.table {})),
      .act (.setThread 1 { stack := [.table 2, .table 7], top := 2 })]

def inFinalizer : List Event := List.replicate 6 .collectStep ++ [.finalize]

/-- A step that frees what is reachable before it. -/
def Frees (c : Config) : Prop :=
  ∃ c' a, c.step .collectStep = some c' ∧ c.state.Reachable a ∧
    c'.state.heap.allocated a = false

theorem frees_of_free {c : Config} (r a : Addr)
    (h : r ∈ c.state.rootObjects ∧ c.state.heap.allocated r = true ∧
      a ∈ c.state.strongReferences r ∧
      (c.step .collectStep).map (·.state.heap.allocated a) = some false) :
    c.Frees := by
  obtain ⟨hr, halloc, href, hfree⟩ := h
  obtain ⟨c', hstep, hfree⟩ := Option.map_eq_some_iff.mp hfree
  exact ⟨c', a, hstep, .edge (.base ⟨hr, halloc⟩) href, hfree⟩

private theorem newTable_runs : (finalizerConfig.run newTable).isSome = true := by
  decide

private theorem inFinalizer_runs :
    (finalizerConfig.run inFinalizer).isSome = true := by
  decide

/--
A sweep frees a table that was put in a register after the stack was scanned;
and a step inside a finalizer sweeps a heap in which nothing is marked.
-/
theorem collectStep_frees_reachable :
    ∃ c₀ : Config, c₀.Start ∧
      (∃ c, Relation.ReflTransGen Step c₀ c ∧ c.control = [] ∧ c.Frees) ∧
      ∃ c, Relation.ReflTransGen Step c₀ c ∧ c.finalizing ∧ c.Frees := by
  refine ⟨finalizerConfig, finalizerConfig_start,
    ⟨(finalizerConfig.run newTable).get newTable_runs,
      path_of_run (Option.some_get newTable_runs).symm, by decide, ?_⟩,
    ⟨(finalizerConfig.run inFinalizer).get inFinalizer_runs,
      path_of_run (Option.some_get inFinalizer_runs).symm, by decide, ?_⟩⟩
  · exact frees_of_free 1 7 (by decide)
  · exact frees_of_free 1 2 (by decide)

end Config

end Luatier
