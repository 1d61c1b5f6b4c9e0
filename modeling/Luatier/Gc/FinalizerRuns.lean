import Luatier.Gc.CollectorFields
import Luatier.Gc.FinalizerCalls

/-!
# Finalizers in runs of the collector

The finalizers of a sweep are the program's own code: they may raise errors,
and they may ask for steps and collections.  Where no step sweeps while they
run, and no error leaves a step that a full collection did not take, every
object is finalized once for the sweep that put it up, and the collector comes
back to rest.
-/

namespace Luatier

namespace Control

def isLoop : Control → Bool
  | .finish => true
  | .cycle => true
  | .finalizers _ => false

def pending : Control → List Addr
  | .finalizers pending => pending
  | _ => []

end Control

def Event.creates : Event → Option Addr
  | .act x => x.creates
  | _ => none

def Event.raises : Event → Bool
  | .finalizersRaise => true
  | _ => false

namespace Config

variable {c c' : Config} {e : Event}

/-! ## What a run queues and starts -/

/-- The objects that a sweep put up and that no finalizer was started for yet. -/
def waiting (c : Config) : List Addr := c.control.flatMap Control.pending

def queued (c : Config) (e : Event) : List Addr :=
  if c.sweeps e then c.state.sweepPending else []

def started (c : Config) : Event → List Addr
  | .finalize =>
      match c.control with
      | .finalizers (a :: _) :: _ => [a]
      | _ => []
  | _ => []

/--
No step of the collector sweeps while finalizers run, and an error of theirs
reaches `full_gc`.
-/
def Undisturbed (c : Config) (e : Event) : Prop :=
  (c.sweeps e = true → c.state.gc.runningFinalizer = false) ∧
    (e.raises = true → c.state.gc.collecting = true)

instance (c : Config) (e : Event) : Decidable (c.Undisturbed e) :=
  inferInstanceAs (Decidable ((_ → _) ∧ (_ → _)))

/-- An event of a run, with the configuration that it finds. -/
abbrev Moment := Config × Event

def UndisturbedStep (c : Config) (m : Moment) (c' : Config) : Prop :=
  m.1 = c ∧ c.Undisturbed m.2 ∧ c.step m.2 = some c'

def allQueued (history : List Moment) : List Addr :=
  history.flatMap fun m => m.1.queued m.2

def allStarted (history : List Moment) : List Addr :=
  history.flatMap fun m => m.1.started m.2

/-- The event ends a sweep or a full collection, and the program goes on. -/
def Finishes (c : Config) (e : Event) (c' : Config) : Prop :=
  (c.sweeps e = true ∨ c.control ≠ []) ∧ c'.control = []

/-- The collector between two cycles. -/
structure AtRest (c : Config) : Prop where
  control : c.control = []
  quiescent : c.state.Quiescent
  collecting : c.state.gc.collecting = false
  runningFinalizer : c.state.gc.runningFinalizer = false
  addresses : c.state.addresses.Nodup

/-! ## The invariant -/

structure Flagged (c : Config) : Prop where
  finalizing : c.finalizing → c.state.gc.phase = .sweep
  white : c.state.gc.phase = .pause ∨ c.finalizing → c.state.AllWhite
  running : c.state.gc.runningFinalizer = true ↔ c.finalizing
  collecting : c.state.gc.collecting = true → c.control.any Control.isLoop = true
  single : c.control.countP Control.isFinalizers ≤ 1

structure Queued (c : Config) : Prop where
  finalize : c.state.gc.finalize = []
  nodup : c.waiting.Nodup
  unfinalized : ∀ a ∈ c.waiting, c.state.gc.finalized a = false
  addresses : c.state.addresses.Nodup

structure Steady (c : Config) : Prop where
  flagged : c.Flagged
  queued : c.Queued

theorem not_finalizing_of_nil (h : c.control = []) : ¬ c.finalizing := by
  simp [Config.finalizing, h]

theorem waiting_of_not_finalizing (h : ¬ c.finalizing) : c.waiting = [] := by
  unfold Config.finalizing at h
  refine List.flatMap_eq_nil_iff.mpr fun frame hframe => ?_
  cases frame with
  | finalizers pending =>
      exact absurd (List.countP_pos_iff.mpr ⟨_, hframe, rfl⟩) h
  | _ => rfl

theorem AtRest.steady (h : c.AtRest) : c.Steady := by
  have hnot := not_finalizing_of_nil h.control
  have hwaiting := waiting_of_not_finalizing hnot
  refine ⟨⟨fun hf => absurd hf hnot, fun _ => h.quiescent.white, ?_, ?_, ?_⟩,
    ⟨h.quiescent.finalize, ?_, ?_, h.addresses⟩⟩
  · simp [h.runningFinalizer, hnot]
  · simp [h.collecting]
  · simp [h.control]
  · simp [hwaiting]
  · simp [hwaiting]

theorem Steady.atRest (h : c.Steady) (hcontrol : c.control = [])
    (hphase : c.state.gc.phase = .pause) : c.AtRest := by
  have hnot := not_finalizing_of_nil hcontrol
  refine ⟨hcontrol, ⟨hphase, h.flagged.white (Or.inl hphase), h.queued.finalize⟩, ?_, ?_,
    h.queued.addresses⟩
  · have hloop := h.flagged.collecting
    simpa [hcontrol] using hloop
  · have hrunning := h.flagged.running
    simpa [hnot] using hrunning

theorem Queued.congr (h : c.Queued) (hwaiting : c'.waiting = c.waiting)
    (hfinalize : c'.state.gc.finalize = c.state.gc.finalize)
    (hfinalized : c'.state.gc.finalized = c.state.gc.finalized)
    (haddresses : c'.state.addresses = c.state.addresses) : c'.Queued := by
  refine ⟨hfinalize.trans h.finalize, ?_, ?_, ?_⟩
  · rw [hwaiting]
    exact h.nodup
  · rw [hwaiting, hfinalized]
    exact h.unfinalized
  · rw [haddresses]
    exact h.addresses

/-! ## Steps of the collector -/

theorem collectStep_marks (hphase : c.state.gc.phase ≠ .sweep) :
    c.collectStep = ⟨c.collectStep.state, c.control⟩ ∧
      c.collectStep.state.addresses = c.state.addresses ∧
      c.collectStep.state.gc = { c.state.gc with
        marks := c.collectStep.state.gc.marks
        phase := c.collectStep.state.gc.phase } ∧
      c.collectStep.state.gc.phase ≠ .pause := by
  unfold Config.collectStep State.step
  cases hp : c.state.gc.phase with
  | pause =>
      simp only [State.withPhase]
      have hroots := c.state.clearGray.markRoots_onlyMarks
      have haddresses := State.addresses_mapCells hroots.data.heap
      refine ⟨trivial, haddresses, ?_, by simp⟩
      rw [hroots.gc]
      rfl
  | propagate =>
      by_cases hgray : c.state.gc.marks.gray = []
      · simp only [hgray, if_true, State.withPhase]
        exact ⟨trivial, rfl, trivial, by simp⟩
      · have hone := c.state.propagateOne_onlyMarks
        have haddresses := State.addresses_mapCells hone.data.heap
        simp only [hgray, if_false]
        refine ⟨trivial, haddresses, ?_, ?_⟩
        · rw [hone.gc]
        · rw [hone.phase, hp]
          simp
  | sweep => exact absurd hp hphase

theorem Steady.marks (h : c.Steady) (hphase : c.state.gc.phase ≠ .sweep) :
    c.collectStep.Steady := by
  obtain ⟨hconfig, haddresses, hgc, hpause⟩ := collectStep_marks hphase
  have hnot : ¬ c.finalizing := fun hf => hphase (h.flagged.finalizing hf)
  generalize c.collectStep.state = L at hconfig haddresses hgc hpause
  rw [hconfig]
  refine ⟨⟨fun hf => absurd hf hnot, ?_, ?_, ?_, h.flagged.single⟩,
    h.queued.congr rfl ?_ ?_ haddresses⟩
  · rintro (hp | hf)
    · exact absurd hp hpause
    · exact absurd hf hnot
  · rw [hgc]
    exact h.flagged.running
  · rw [hgc]
    exact h.flagged.collecting
  · rw [hgc]
  · rw [hgc]

theorem Steady.sweep (h : c.Steady) (hphase : c.state.gc.phase = .sweep)
    (hrunning : c.state.gc.runningFinalizer = false) :
    c.collectStep.Steady ∧ c.collectStep.waiting = c.state.sweepPending ∧
      c.collectStep.state.gc.finalized = c.state.gc.finalized ∧
      (c.collectStep.control = [] → c.collectStep.state.gc.phase = .pause) := by
  have hnot : ¬ c.finalizing := by
    rw [← h.flagged.running, hrunning]
    simp
  have hgc := c.state.sweepObjects_gc
  have hwhite := c.state.sweepObjects_allWhite
  have haddresses := h.queued.addresses.sublist c.state.sweepObjects_addresses
  have hnodup := State.sweepPending_nodup h.queued.addresses
  have hunfinalized : ∀ a ∈ c.state.sweepPending, c.state.gc.finalized a = false :=
    fun _ => State.sweepPending_unfinalized
  have hwaiting := waiting_of_not_finalizing hnot
  rw [h.queued.finalize, List.nil_append] at hgc
  unfold Config.collectStep
  simp only [hphase]
  generalize c.state.sweepObjects = L at *
  generalize c.state.sweepPending = pending at *
  have hfinalize : L.gc.finalize = pending := by rw [hgc]
  have hfinalized : L.gc.finalized = c.state.gc.finalized := by rw [hgc]
  have hcollecting : L.gc.collecting = c.state.gc.collecting := by rw [hgc]
  have hflag : L.gc.runningFinalizer = false := by rw [hgc, hrunning]
  have hswept : L.gc.phase = .sweep := by rw [hgc, hphase]
  split
  · rename_i hnil
    have hpending : c.waiting = pending := by rw [hwaiting, ← hfinalize, hnil]
    refine ⟨⟨⟨fun hf => absurd hf hnot, fun _ => hwhite, ?_, ?_, h.flagged.single⟩,
      ⟨hnil, h.queued.nodup, ?_, haddresses⟩⟩, hpending, hfinalized, fun _ => rfl⟩
    · exact iff_of_false (by simp [State.withPhase, hflag]) hnot
    · exact fun hc => h.flagged.collecting (hcollecting.symm.trans hc)
    · exact fun a ha => (congrFun hfinalized a).trans (h.queued.unfinalized a ha)
  · have hstack : (Config.mk L.takeFinalize (.finalizers L.gc.finalize :: c.control)).waiting =
        pending := by
      rw [hfinalize]
      simpa [Config.waiting, Control.pending] using hwaiting
    refine ⟨⟨⟨fun _ => hswept, fun _ => hwhite, ?_, ?_, ?_⟩, ⟨rfl, ?_, ?_, haddresses⟩⟩,
      hstack, hfinalized, ?_⟩
    · exact iff_of_true rfl (by simp [Config.finalizing, Control.isFinalizers])
    · exact fun hc => h.flagged.collecting (hcollecting.symm.trans hc)
    · unfold Config.finalizing at hnot
      rw [List.countP_cons_of_pos rfl]
      omega
    · rw [hstack]
      exact hnodup
    · rw [hstack]
      exact fun a ha => (congrFun hfinalized a).trans (hunfinalized a ha)
    · simp

/-! ## One event -/

def unfinalized (c : Config) (a : Addr) : Nat :=
  if c.state.gc.finalized a then 0 else 1

structure Advanced (c : Config) (e : Event) (c' : Config) : Prop where
  steady : c'.Steady
  waiting : c.waiting ++ c.queued e = c.started e ++ c'.waiting
  unfinalized : ∀ a, e.creates ≠ some a →
    (c.started e).count a + c'.unfinalized a = c.unfinalized a
  atRest : c.Finishes e c' → c'.AtRest

theorem Steady.advanced (h : c'.Steady) (hstarted : c.started e = [])
    (hwaiting : c'.waiting = c.waiting ++ c.queued e)
    (hfinalized : c'.state.gc.finalized = c.state.gc.finalized)
    (hphase : c.Finishes e c' → c'.state.gc.phase = .pause) : c.Advanced e c' := by
  refine ⟨h, ?_, fun a _ => ?_, fun hf => h.atRest hf.2 (hphase hf)⟩
  · rw [hstarted, hwaiting, List.nil_append]
  · simp only [hstarted, List.count_nil, Nat.zero_add, Config.unfinalized, hfinalized]

theorem Steady.collect (h : c.Steady)
    (hsweeps : c.sweeps e = (c.state.gc.phase == .sweep)) (hund : c.Undisturbed e)
    (hstarted : c.started e = []) : c.Advanced e c.collectStep := by
  by_cases hphase : c.state.gc.phase = .sweep
  · have htrue : c.sweeps e = true := by simp [hsweeps, hphase]
    have hrunning := hund.1 htrue
    obtain ⟨hsteady, hwaiting, hfinalized, hpause⟩ := h.sweep hphase hrunning
    have hnot : ¬ c.finalizing := by
      rw [← h.flagged.running, hrunning]
      simp
    refine hsteady.advanced hstarted ?_ hfinalized fun hf => hpause hf.2
    rw [waiting_of_not_finalizing hnot, List.nil_append, hwaiting, Config.queued, htrue,
      if_pos rfl]
  · have hfalse : c.sweeps e = false := by simp [hsweeps, hphase]
    obtain ⟨hconfig, -, hgc, -⟩ := collectStep_marks hphase
    have hcontrol : c.collectStep.control = c.control := by rw [hconfig]
    refine (h.marks hphase).advanced hstarted ?_ (by rw [hgc]) fun hf => ?_
    · simp [Config.waiting, Config.queued, hcontrol, hfalse]
    · obtain ⟨hbusy, hnil⟩ := hf
      rw [hcontrol] at hnil
      simp [hfalse, hnil] at hbusy

theorem Steady.finalizersDone (h : c.Steady) {control rest : List Control} {L : State}
    (hc : c.control = .finalizers [] :: control) (hrest : rest.Sublist control)
    (hphase : L.gc.phase = .pause) (hwhite : c.state.AllWhite → L.AllWhite)
    (hrunning : L.gc.runningFinalizer = false)
    (hcollecting : L.gc.collecting = true → rest.any Control.isLoop = true)
    (hfinalize : L.gc.finalize = c.state.gc.finalize)
    (hfinalized : L.gc.finalized = c.state.gc.finalized)
    (haddresses : L.addresses = c.state.addresses)
    (hqueued : c.queued e = []) (hstarted : c.started e = []) :
    c.Advanced e ⟨L, rest⟩ := by
  have hfinalizing : c.finalizing := by
    unfold Config.finalizing
    rw [hc]
    simp [Control.isFinalizers]
  have hnone : control.countP Control.isFinalizers = 0 := by
    have hsingle := h.flagged.single
    rw [hc, List.countP_cons_of_pos rfl] at hsingle
    omega
  have hcount : rest.countP Control.isFinalizers = 0 :=
    Nat.le_zero.mp (hnone ▸ hrest.countP_le)
  have hnot : ∀ {L : State} {control : List Control},
      control.countP Control.isFinalizers = 0 → ¬ (Config.mk L control).finalizing := by
    intro L control hzero
    exact Nat.not_lt.mpr hzero.le
  have hwaiting : c.waiting = [] := by
    have hcontrol : c.waiting = (Config.mk L control).waiting := by
      unfold Config.waiting
      rw [hc]
      rfl
    exact hcontrol.trans (waiting_of_not_finalizing (hnot hnone))
  have hnil : (Config.mk L rest).waiting = [] := waiting_of_not_finalizing (hnot hcount)
  have hsteady : (Config.mk L rest).Steady := by
    refine ⟨⟨fun hf => absurd hf (hnot hcount),
      fun _ => hwhite (h.flagged.white (Or.inr hfinalizing)), ?_, hcollecting, ?_⟩,
      h.queued.congr (hnil.trans hwaiting.symm) hfinalize hfinalized haddresses⟩
    · exact iff_of_false (by simp [hrunning]) (hnot hcount)
    · exact hcount.le.trans (Nat.zero_le 1)
  refine hsteady.advanced hstarted ?_ hfinalized fun _ => hphase
  rw [hnil, hwaiting, hqueued, List.nil_append]

theorem Steady.act (h : c.Steady) {x : Action} (hstep : c.step (.act x) = some c') :
    c.Advanced (.act x) c' := by
  simp only [Config.step, Option.ite_none_right_eq_some] at hstep
  obtain ⟨L', hact, rfl⟩ := Option.map_eq_some_iff.mp hstep.2
  have hx := State.act_acted hact
  have hphase : L'.gc.phase = c.state.gc.phase := by rw [hx.gc]
  have hother : ∀ a, x.creates ≠ some a →
      L'.gc.finalized a = c.state.gc.finalized a := by
    intro a ha
    rw [hx.finalized]
    cases hmade : x.creates with
    | none => rfl
    | some b =>
        have hne : a ≠ b := fun hab => ha (by rw [hmade, hab])
        exact Function.update_of_ne hne _ _
  refine ⟨⟨⟨?_, ?_, ?_, ?_, h.flagged.single⟩, ⟨?_, h.queued.nodup, ?_, ?_⟩⟩, ?_, ?_, ?_⟩
  · exact fun hf => hphase.trans (h.flagged.finalizing hf)
  · exact fun hp => hx.white (h.flagged.white (hp.imp_left hphase.symm.trans))
  · rw [hx.gc]
    exact h.flagged.running
  · rw [hx.gc]
    exact h.flagged.collecting
  · rw [hx.gc]
    exact h.queued.finalize
  · intro a ha
    by_cases hmade : x.creates = some a
    · rw [hx.finalized, hmade]
      exact Function.update_self ..
    · rw [hother a hmade]
      exact h.queued.unfinalized a ha
  · rw [hx.addresses]
    refine List.nodup_append'.mpr ⟨?_, h.queued.addresses, ?_⟩
    · cases x.creates <;> simp
    · exact fun a ha => hx.fresh a (Option.mem_toList.mp ha)
  · simp [Config.queued, Config.sweeps, Config.started, Config.waiting]
  · intro a ha
    have hsame := hother a ha
    simp only [Config.started, List.count_nil, Nat.zero_add, Config.unfinalized, hsame]
  · rintro ⟨hbusy, hnil⟩
    simp only [Config.sweeps, Bool.false_eq_true, false_or] at hbusy
    exact absurd hnil hbusy

theorem Steady.collectFull (h : c.Steady) (hstep : c.step .collectFull = some c') :
    c.Advanced .collectFull c' := by
  have hqueued : c.queued .collectFull = [] := by simp [Config.queued, Config.sweeps]
  simp only [Config.step] at hstep
  split at hstep
  · contradiction
  split at hstep
  · obtain rfl := Option.some.inj hstep
    refine h.advanced rfl (by simp [hqueued]) rfl ?_
    rintro ⟨hbusy, hnil⟩
    simp [Config.sweeps, hnil] at hbusy
  · obtain rfl := Option.some.inj hstep
    have hwaiting : (Config.mk (c.state.setCollecting true) (.finish :: c.control)).waiting =
        c.waiting := rfl
    have hcount : (Control.finish :: c.control).countP Control.isFinalizers =
        c.control.countP Control.isFinalizers := List.countP_cons_of_neg (by decide)
    have hfinalizing : (Config.mk (c.state.setCollecting true)
        (.finish :: c.control)).finalizing ↔ c.finalizing := by
      simp only [Config.finalizing, hcount]
    have hsteady : (Config.mk (c.state.setCollecting true) (.finish :: c.control)).Steady := by
      refine ⟨⟨fun hf => h.flagged.finalizing (hfinalizing.mp hf),
        fun hp => h.flagged.white (hp.imp_right hfinalizing.mp),
        h.flagged.running.trans hfinalizing.symm, fun _ => rfl,
        hcount.le.trans h.flagged.single⟩, h.queued.congr hwaiting rfl rfl rfl⟩
    refine hsteady.advanced rfl (by rw [hwaiting, hqueued, List.append_nil]) rfl ?_
    rintro ⟨-, hnil⟩
    contradiction

theorem Steady.nextLoop (h : c.Steady) {rest : List Control}
    (hc : c.control = .finish :: rest) :
    (Config.mk c.state.clearGray (.cycle :: rest)).Steady := by
  have hcount : (Control.cycle :: rest).countP Control.isFinalizers =
      c.control.countP Control.isFinalizers := by
    rw [hc]
    rfl
  have hfinalizing : (Config.mk c.state.clearGray (.cycle :: rest)).finalizing ↔
      c.finalizing := by
    simp only [Config.finalizing, hcount]
  refine ⟨⟨fun hf => h.flagged.finalizing (hfinalizing.mp hf),
    fun hp => h.flagged.white (hp.imp_right hfinalizing.mp),
    h.flagged.running.trans hfinalizing.symm, fun _ => rfl,
    hcount.le.trans h.flagged.single⟩, h.queued.congr ?_ rfl rfl rfl⟩
  simp [Config.waiting, hc, Control.pending]

theorem Steady.turn (h : c.Steady) (hund : c.Undisturbed .turn)
    (hstep : c.step .turn = some c') : c.Advanced .turn c' := by
  have hcollect : c.running = false → c.Advanced .turn c.collectStep := fun hrun =>
    h.collect (by simp [Config.sweeps, hrun]) hund rfl
  simp only [Config.step] at hstep
  split at hstep
  · rename_i rest hc
    split at hstep
    · rename_i hpause
      obtain rfl := Option.some.inj hstep
      have hnext := h.nextLoop hc
      have hphase : (Config.mk c.state.clearGray (.cycle :: rest)).state.gc.phase ≠ .sweep := by
        simp [State.clearGray, State.withMarks, hpause]
      -- the loop at the top does not matter to a step that marks the roots
      have hsame : (Config.mk c.state.clearGray (.cycle :: rest)).collectStep =
          { (Config.mk c.state.clearGray rest).collectStep with control := .cycle :: rest } := by
        have hclear : c.state.clearGray.gc.phase = .pause := hpause
        simp [Config.collectStep, State.step, hclear]
      obtain ⟨-, -, hgc, -⟩ := collectStep_marks hphase
      have hfinalized : (Config.mk c.state.clearGray
          (.cycle :: rest)).collectStep.state.gc.finalized = c.state.gc.finalized := by
        rw [hgc]
        rfl
      rw [← hsame]
      refine (hnext.marks hphase).advanced rfl ?_ hfinalized ?_
      · rw [hsame]
        simp [Config.waiting, Config.queued, Config.sweeps, hc, hpause, Control.pending]
      · rintro ⟨-, hnil⟩
        rw [hsame] at hnil
        contradiction
    · obtain rfl := Option.some.inj hstep
      exact hcollect (by simp [Config.running, hc])
  · rename_i rest hc
    split at hstep
    · rename_i hpause
      obtain rfl := Option.some.inj hstep
      have hcount : rest.countP Control.isFinalizers =
          c.control.countP Control.isFinalizers := by
        rw [hc]
        rfl
      have hfinalizing : (Config.mk (c.state.setCollecting false) rest).finalizing ↔
          c.finalizing := by
        simp only [Config.finalizing, hcount]
      have hwaiting : (Config.mk (c.state.setCollecting false) rest).waiting = c.waiting := by
        simp [Config.waiting, hc, Control.pending]
      have hsteady : (Config.mk (c.state.setCollecting false) rest).Steady := by
        refine ⟨⟨fun hf => h.flagged.finalizing (hfinalizing.mp hf),
          fun hp => h.flagged.white (hp.imp_right hfinalizing.mp),
          h.flagged.running.trans hfinalizing.symm, ?_,
          hcount.le.trans h.flagged.single⟩, h.queued.congr hwaiting rfl rfl rfl⟩
        exact fun hfalse => absurd hfalse (by simp [State.setCollecting])
      refine hsteady.advanced rfl ?_ rfl fun _ => hpause
      simp [hwaiting, Config.queued, Config.sweeps, hpause]
    · obtain rfl := Option.some.inj hstep
      exact hcollect (by simp [Config.running, hc])
  · contradiction

theorem Steady.finalize (h : c.Steady) (hstep : c.step .finalize = some c') :
    c.Advanced .finalize c' := by
  simp only [Config.step] at hstep
  split at hstep
  · rename_i a pending rest hc
    obtain rfl := Option.some.inj hstep
    have hgc := c.state.startFinalizer_gc a
    have haddresses := c.state.startFinalizer_addresses a
    generalize c.state.startFinalizer a = L at hgc haddresses ⊢
    have hwaiting : c.waiting = a :: (Config.mk L (.finalizers pending :: rest)).waiting := by
      unfold Config.waiting
      rw [hc]
      rfl
    have hstarted : c.started .finalize = [a] := by simp only [Config.started, hc]
    have hfinalized : L.gc.finalized = Function.update c.state.gc.finalized a true := by
      rw [hgc]
    have hnodup := h.queued.nodup
    have hunfinalized := h.queued.unfinalized
    rw [hwaiting] at hnodup hunfinalized
    obtain ⟨hnew, hnodup⟩ := List.nodup_cons.mp hnodup
    have hfinalizing : c.finalizing := by
      unfold Config.finalizing
      rw [hc]
      simp [Control.isFinalizers]
    have hcount : (Control.finalizers pending :: rest).countP Control.isFinalizers =
        c.control.countP Control.isFinalizers := by
      rw [hc]
      rfl
    refine ⟨⟨⟨fun _ => ?_, fun _ => ?_, ?_, ?_, hcount.le.trans h.flagged.single⟩,
      ⟨?_, hnodup, fun b hb => ?_, haddresses ▸ h.queued.addresses⟩⟩, ?_, fun b _ => ?_, ?_⟩
    · rw [hgc]
      exact h.flagged.finalizing hfinalizing
    · unfold State.AllWhite
      rw [hgc]
      exact h.flagged.white (Or.inr hfinalizing)
    · rw [hgc]
      exact h.flagged.running.trans
        (iff_of_true hfinalizing (by simp [Config.finalizing, Control.isFinalizers]))
    · rw [hgc]
      intro hcollecting
      have hloop := h.flagged.collecting hcollecting
      rw [hc] at hloop
      exact hloop
    · rw [hgc]
      exact h.queued.finalize
    · have hne : b ≠ a := fun hba => hnew (hba ▸ hb)
      rw [hfinalized, Function.update_of_ne hne]
      exact hunfinalized b (List.mem_cons_of_mem a hb)
    · rw [hstarted, hwaiting]
      simp [Config.queued, Config.sweeps]
    · rw [hstarted]
      by_cases hba : b = a
      · subst hba
        have hold := hunfinalized b List.mem_cons_self
        simp [Config.unfinalized, hfinalized, hold]
      · simp [Config.unfinalized, hfinalized, Function.update_of_ne hba,
          List.count_cons_of_ne (Ne.symm hba)]
    · rintro ⟨-, hnil⟩
      contradiction
  · contradiction

theorem Steady.finalizersReturn (h : c.Steady) (hstep : c.step .finalizersReturn = some c') :
    c.Advanced .finalizersReturn c' := by
  simp only [Config.step] at hstep
  split at hstep
  · rename_i rest hc
    obtain rfl := Option.some.inj hstep
    refine h.finalizersDone hc (List.Sublist.refl rest) rfl id rfl ?_ rfl rfl rfl
      (by simp [Config.queued, Config.sweeps]) rfl
    intro hcollecting
    have hloop := h.flagged.collecting hcollecting
    rw [hc] at hloop
    exact hloop
  · contradiction

theorem Steady.finalizersRaise (h : c.Steady) (hund : c.Undisturbed .finalizersRaise)
    (hstep : c.step .finalizersRaise = some c') : c.Advanced .finalizersRaise c' := by
  have hqueued : c.queued .finalizersRaise = [] := by simp [Config.queued, Config.sweeps]
  have hloop := h.flagged.collecting (hund.2 rfl)
  have hdone : ∀ {loop : Control} {rest : List Control},
      c.control = .finalizers [] :: loop :: rest → c.Advanced .finalizersRaise
        ⟨(((c.state.setRunningFinalizer false).setCollecting false).withPhase .pause).clearGray,
          rest⟩ := by
    intro loop rest hc
    exact h.finalizersDone hc (List.sublist_cons_self loop rest) rfl id rfl
      (fun hcollecting => absurd hcollecting Bool.false_ne_true) rfl rfl rfl hqueued rfl
  simp only [Config.step] at hstep
  split at hstep
  · rename_i rest hc
    rw [← Option.some.inj hstep]
    exact hdone hc
  · rename_i rest hc
    rw [← Option.some.inj hstep]
    exact hdone hc
  · rename_i rest hfinish hcycle hc
    have hsingle := h.flagged.single
    rw [hc] at hloop hsingle
    cases rest with
    | nil => contradiction
    | cons frame rest =>
        cases frame with
        | finalizers pending =>
            rw [List.countP_cons_of_pos rfl, List.countP_cons_of_pos rfl] at hsingle
            omega
        | finish => exact absurd rfl (hfinish rest)
        | cycle => exact absurd rfl (hcycle rest)
  · contradiction

theorem Steady.step (h : c.Steady) (hund : c.Undisturbed e) (hstep : c.step e = some c') :
    c.Advanced e c' := by
  cases e with
  | act x => exact h.act hstep
  | collectStep =>
      simp only [Config.step, Option.ite_none_right_eq_some] at hstep
      obtain ⟨hrun, hstep⟩ := hstep
      obtain rfl := Option.some.inj hstep
      exact h.collect (by simp [Config.sweeps, hrun]) hund rfl
  | collectFull => exact h.collectFull hstep
  | turn => exact h.turn hund hstep
  | finalize => exact h.finalize hstep
  | finalizersReturn => exact h.finalizersReturn hstep
  | finalizersRaise => exact h.finalizersRaise hund hstep

/-! ## Runs -/

/-- What was started and what still waits is, in order, what the sweeps put up. -/
theorem AtRest.run {c₀ : Config} (h₀ : c₀.AtRest) {past : List Moment}
    (hpast : Machine.Run UndisturbedStep c₀ past c) :
    c.Steady ∧ allStarted past ++ c.waiting = allQueued past := by
  induction hpast with
  | refl =>
      exact ⟨h₀.steady, waiting_of_not_finalizing (not_finalizing_of_nil h₀.control)⟩
  | @step c c' past m _ hlast ih =>
      obtain ⟨hsteady, hqueue⟩ := ih
      obtain ⟨rfl, hund, hstep⟩ := hlast
      have hadvanced := hsteady.step hund hstep
      refine ⟨hadvanced.steady, ?_⟩
      have hwaiting := hadvanced.waiting
      simp only [allStarted, allQueued, List.flatMap_append, List.flatMap_singleton] at hqueue ⊢
      rw [List.append_assoc, ← hwaiting, ← List.append_assoc, hqueue]

theorem Steady.count_started (h : c.Steady) {later : List Moment}
    (hlater : Machine.Run UndisturbedStep c later c') {a : Addr}
    (hcreates : ∀ m ∈ later, m.2.creates ≠ some a) :
    c'.Steady ∧ (allStarted later).count a + c'.unfinalized a = c.unfinalized a := by
  induction hlater with
  | refl => exact ⟨h, Nat.zero_add _⟩
  | @step c c' later m _ hlast ih =>
      obtain ⟨hsteady, hcount⟩ := ih fun m hm => hcreates m (List.mem_append_left _ hm)
      obtain ⟨rfl, hund, hstep⟩ := hlast
      have hadvanced := hsteady.step hund hstep
      have hone := hadvanced.unfinalized a (hcreates m (by simp))
      refine ⟨hadvanced.steady, ?_⟩
      simp only [allStarted, List.flatMap_append, List.flatMap_singleton,
        List.count_append] at hcount ⊢
      omega

/-! ## The loop of `run_finalizers` -/

section Loop

variable {program : Program}

/-- What a finalizer that asks for no collection leaves to the collector. -/
structure Calm (L L' : State) : Prop where
  phase : L'.gc.phase = L.gc.phase
  collecting : L'.gc.collecting = L.gc.collecting
  finalize : L'.gc.finalize = L.gc.finalize
  white : L.AllWhite → L'.AllWhite

theorem Calm.trans {L L' L'' : State} (h : Calm L L') (h' : Calm L' L'') : Calm L L'' :=
  ⟨h'.phase.trans h.phase, h'.collecting.trans h.collecting, h'.finalize.trans h.finalize,
    h'.white ∘ h.white⟩

theorem Calm.of_gc {L L' : State} (h : L'.gc = L.gc) : Calm L L' := by
  refine ⟨by rw [h], by rw [h], by rw [h], fun hwhite => ?_⟩
  unfold State.AllWhite
  rw [h]
  exact hwhite

def outcomeState : Outcome → State
  | .ok _ L => L
  | .error _ L => L

/-- The finalizers of a program, whether they raise errors or not, ask for no collection. -/
def CallsCalm (program : Program) : Prop :=
  ∀ (L : State) a th f obj, Calm L (outcomeState (L.callFinalizer program a th f obj))

theorem calm_startFinalizer (L : State) (o : Addr) : Calm L (L.startFinalizer o) := by
  have hgc := L.startFinalizer_gc o
  refine ⟨by rw [hgc], by rw [hgc], by rw [hgc], fun hwhite => ?_⟩
  unfold State.AllWhite
  rw [hgc]
  exact hwhite

theorem dropErrObj_gc (L : State) : L.dropErrObj.gc = L.gc := by
  unfold State.dropErrObj
  cases L.current <;> rfl

theorem calm_resetTop (L : State) : Calm L L.resetTop := by
  unfold State.resetTop
  cases L.currentThread? with
  | none => exact .of_gc rfl
  | some p => exact .of_gc rfl

theorem CallsCalm.finalizeOne (hcalm : CallsCalm program) (firstError : String) (L : State)
    (o : Addr) : Calm L (State.finalizeOne program firstError L o).2 := by
  have hstart := calm_startFinalizer L o
  unfold State.finalizeOne
  split
  · rename_i f a th _ _
    have hcall := hcalm (L.startFinalizer o) a th f (L.gcObjectValue o)
    revert hcall
    cases (L.startFinalizer o).callFinalizer program a th f (L.gcObjectValue o) with
    | ok _ L' => exact hstart.trans
    | error e L' => exact fun hcall => (hstart.trans hcall).trans (calm_resetTop L')
  · exact hstart

theorem CallsCalm.turns (hcalm : CallsCalm program) (L : State) (pending : List Addr) :
    Calm L (State.turns program L pending) := by
  induction pending generalizing L with
  | nil => exact .of_gc rfl
  | cons o pending ih => exact (hcalm.finalizeOne "" L o).trans (ih _)

/-- What `run_finalizers` does at the end of the sweep of an event. -/
structure FinalizesAll (program : Program) (c : Config) (e : Event) : Prop where
  pending : c.state.sweepObjects.gc.finalize = c.queued e
  once : ∀ pre o post, c.queued e = pre ++ o :: post →
    (State.finalizerCalls program c.state.sweepObjects.takeFinalize (c.queued e)).filter
        (·.object == o) =
      State.turnCalls program (State.turns program c.state.sweepObjects.takeFinalize pre) o
  returns : c.queued e ≠ [] →
    State.runFinalizers program c.state.sweepObjects =
      let L' := (State.turns program c.state.sweepObjects.takeFinalize
        (c.queued e)).setRunningFinalizer false
      match (State.finalizerCalls program c.state.sweepObjects.takeFinalize
          (c.queued e)).findSome? (·.raised) with
      | none => .ok () L'
      | some e => .error (State.gcError e) L'.dropErrObj
  step : CallsCalm program →
    match c.state.step (State.runFinalizers program) with
    | .ok _ L' => L'.Quiescent ∧ L'.gc.runningFinalizer = false ∧
        L'.gc.collecting = c.state.gc.collecting
    | .error _ L' => (((L'.setCollecting false).withPhase .pause).clearGray).Quiescent ∧
        L'.gc.runningFinalizer = false

theorem Steady.finalizesAll (h : c.Steady) (program : Program) (hund : c.Undisturbed e)
    (hsweeps : c.sweeps e = true) : c.FinalizesAll program e := by
  have hphase : c.state.gc.phase = .sweep := by
    cases e with
    | collectStep => exact (by simpa [Config.sweeps] using hsweeps : _ ∧ _).2
    | turn => exact (by simpa [Config.sweeps] using hsweeps : _ ∧ _).2
    | _ => contradiction
  have hgc := c.state.sweepObjects_gc
  have hwhite := c.state.sweepObjects_allWhite
  have hnodup := State.sweepPending_nodup h.queued.addresses
  have hqueued : c.queued e = c.state.sweepPending := by simp [Config.queued, hsweeps]
  rw [h.queued.finalize, List.nil_append] at hgc
  rw [← hqueued] at hgc hnodup
  have hpending : c.state.sweepObjects.gc.finalize = c.queued e := by rw [hgc]
  have hcollecting : c.state.sweepObjects.gc.collecting = c.state.gc.collecting := by rw [hgc]
  have hrunning : c.state.sweepObjects.gc.runningFinalizer = false := by
    rw [hgc]
    exact hund.1 hsweeps
  have hreturns (hne : c.queued e ≠ []) := @State.runFinalizers_eq program _
    (hpending.trans_ne hne)
  rw [hpending] at hreturns
  refine ⟨hpending, fun pre o post => State.calls_of_object hnodup, hreturns, fun hcalm => ?_⟩
  simp only [State.step, hphase]
  by_cases hnil : c.queued e = []
  · rw [State.runFinalizers, if_pos (hpending.trans hnil)]
    exact ⟨⟨rfl, hwhite, hpending.trans hnil⟩, hrunning, hcollecting⟩
  · have hturns := hcalm.turns c.state.sweepObjects.takeFinalize (c.queued e)
    rw [hreturns hnil]
    generalize State.turns program _ _ = L at hturns
    have hdropped := dropErrObj_gc (L.setRunningFinalizer false)
    have hallWhite : L.AllWhite := hturns.white hwhite
    have hfinalize : L.gc.finalize = [] := hturns.finalize
    cases (State.finalizerCalls program c.state.sweepObjects.takeFinalize
        (c.queued e)).findSome? (·.raised) with
    | none => exact ⟨⟨rfl, hallWhite, hfinalize⟩, rfl, hturns.collecting.trans hcollecting⟩
    | some message =>
        have hcalm := Calm.of_gc hdropped
        exact ⟨⟨rfl, hcalm.white hallWhite, hcalm.finalize.trans hfinalize⟩,
          congrArg GC.runningFinalizer hdropped⟩

end Loop

def moments : Config → List Event → List Moment
  | _, [] => []
  | c, e :: rest => (c, e) ::
      match c.step e with
      | some c' => moments c' rest
      | none => []

theorem run_of_moments {events : List Event} (hrun : c.run events = some c')
    (hund : ∀ m ∈ c.moments events, m.1.Undisturbed m.2) :
    Machine.Run UndisturbedStep c (c.moments events) c' := by
  induction events generalizing c with
  | nil =>
      obtain rfl := Option.some.inj hrun
      exact .refl c
  | cons e rest ih =>
      obtain ⟨c₁, hstep, hrest⟩ := Option.bind_eq_some_iff.mp hrun
      simp only [moments, hstep] at hund ⊢
      have hfirst := hund (c, e) List.mem_cons_self
      exact .head ⟨rfl, hfirst, hstep⟩
        (ih hrest fun m hm => hund m (List.mem_cons_of_mem _ hm))

def twoFinalizers : Config :=
  { state := { finalizerConfig.state with
      heap := (8, .table { metatable := some 5 }) :: finalizerConfig.state.heap } }

private theorem twoFinalizers_atRest : twoFinalizers.AtRest :=
  ⟨rfl, ⟨rfl, fun _ => rfl, rfl⟩, rfl, rfl, by decide⟩

def fullCollection : List Event :=
  .collectFull :: List.replicate 6 .turn ++ [.finalize, .finalize, .finalizersRaise]

def steppedCycle : List Event :=
  List.replicate 6 .collectStep ++ [.finalize, .finalize]

def nestedStep : List Event :=
  List.replicate 6 .collectStep ++
    [.finalize, .collectStep, .finalize, .finalizersReturn, .finalize, .finalizersReturn]

private theorem fullCollection_runs : (twoFinalizers.run fullCollection).isSome = true := by
  decide

private theorem steppedCycle_runs : (twoFinalizers.run steppedCycle).isSome = true := by
  decide

private def called : Config := (twoFinalizers.run steppedCycle).get steppedCycle_runs

private theorem called_raises : called.step .finalizersRaise =
    some ⟨called.state.setRunningFinalizer false, []⟩ := by
  have hcontrol : called.control = [.finalizers []] := by decide
  simp only [Config.step, hcontrol]

end Config

end Luatier
