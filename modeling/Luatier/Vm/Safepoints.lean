import Luatier.Gc.FinalizerCalls
import Luatier.Gc.OpenUpvals
import Luatier.Vm.CallProtocol
import Luatier.Vm.Results

/-!
# Collections at safepoints

A safepoint of the interpreter runs a full collection, with the finalizers
after it, or nothing.  Either leaves the running thread as `Safepoint` says, so
what a call goes by is kept if it lies below the collector's limit.
-/

namespace Luatier

namespace State

variable {L L' : State} {a : Addr} {th : Thread}

/-! ## The sweep -/

theorem clearDeadStacks_thread? (hth : L.thread? a = some th) :
    ∃ stack, L.clearDeadStacks.thread? a = some { th with stack } ∧
      ∀ i < L.stackLimit a th, stack.getD i .nil = th.slot i := by
  have hfold : ∀ (threads : List Addr) (M : State) (stack : List TValue),
      M.thread? a = some { th with stack } →
      (∀ t, M.stackLimit a t = L.stackLimit a t) →
      (∀ i < L.stackLimit a th, stack.getD i .nil = th.slot i) →
      ∃ stack, (threads.foldl clearDeadStack M).thread? a = some { th with stack } ∧
        ∀ i < L.stackLimit a th, stack.getD i .nil = th.slot i := by
    intro threads
    induction threads with
    | nil => exact fun _ stack hM _ hslots => ⟨stack, hM, hslots⟩
    | cons b threads ih =>
        intro M stack hM hlimit hslots
        have hlimit' (t : Thread) : (M.clearDeadStack b).stackLimit a t = L.stackLimit a t :=
          (M.stackLimit_clearDeadStack b a t 0).1.trans (hlimit t)
        have hclear := M.thread?_clearDeadStack b a
        rw [hM, Option.map_some] at hclear
        by_cases hb : a = b
        · subst hb
          rw [if_pos rfl] at hclear
          refine ih _ _ hclear hlimit' fun i hi => ?_
          have hbelow : i < M.stackLimit a { th with stack } := (hlimit _).symm ▸ hi
          exact (clearFrom_getD _ _ i).trans ((if_pos hbelow).trans (hslots i hi))
        · rw [if_neg hb] at hclear
          exact ih _ _ hclear hlimit' hslots
  exact hfold L.rootThreads L th.stack hth (fun _ => rfl) fun _ _ => rfl

theorem clearDeadStacks_current (L : State) : L.clearDeadStacks.current = L.current := by
  have hfold : ∀ (threads : List Addr) (L : State),
      (threads.foldl clearDeadStack L).current = L.current := by
    intro threads
    induction threads with
    | nil => exact fun L => rfl
    | cons b threads ih => exact fun L => ih (L.clearDeadStack b)
  exact hfold L.rootThreads L

theorem collect_current (hL : L.Quiescent) : L.collect.current = L.current := by
  have hmarked := (sweepMarked_sameGraph hL).current.trans L.clearDeadStacks_current
  rw [collect, sweepObjects_eq]
  generalize L.markPhase.sweepMarked = M at hmarked
  exact hmarked

theorem CollectedTo.safepoint {kept : Addr → Prop} (h : CollectedTo L L' kept)
    (ha : kept a) (hth : L.thread? a = some th) :
    ∃ stack, Safepoint a L th L' { th with stack } := by
  obtain ⟨stack, hcleared, hslots⟩ := clearDeadStacks_thread? hth
  refine ⟨stack, (h.thread a ha).trans hcleared, rfl, Nat.le_refl _, fun i _ hc => ?_,
    fun i hi _ => hslots i hi⟩
  obtain ⟨u, uv, huv, hcaptured⟩ := hc
  have hu := ((h.allocated u).mp (allocated_of_upval? huv)).2
  exact ⟨u, uv, (h.upval u hu).symm.trans huv, hcaptured⟩

theorem kept_of_current (hcurrent : L.current = some a) (hth : L.thread? a = some th) :
    L.Kept a := by
  refine .base (Or.inl ⟨a, ?_, allocated_of_thread? hth, .refl⟩)
  simp [roots, rootThreads, threadRoots, hcurrent, hth]

/-! ## The windows of the frames -/

theorem mapTable_functions {M : State} {b : Addr} {f : Table → Table}
    (h : L'.object? b = (M.object? b).map (Object.mapTable f)) :
    L'.proto? b = M.proto? b ∧ L'.closure? b = M.closure? b := by
  simp only [proto?, closure?, h]
  cases M.object? b with
  | none => exact ⟨rfl, rfl⟩
  | some o => cases o <;> exact ⟨rfl, rfl⟩

theorem clearDeadStacks_functions (L : State) :
    L.clearDeadStacks.proto? = L.proto? ∧ L.clearDeadStacks.closure? = L.closure? := by
  have hfold : ∀ (threads : List Addr) (L : State),
      (threads.foldl clearDeadStack L).proto? = L.proto? ∧
        (threads.foldl clearDeadStack L).closure? = L.closure? := by
    intro threads
    induction threads with
    | nil => exact fun L => ⟨rfl, rfl⟩
    | cons b threads ih =>
        intro L
        obtain ⟨hproto, hclosure⟩ := ih (L.clearDeadStack b)
        exact ⟨hproto.trans (L.proto?_clearDeadStack b),
          hclosure.trans (L.closure?_clearDeadStack b)⟩
  exact hfold L.rootThreads L

theorem allocated_of_object? {b : Addr} {o : Object} (h : L.object? b = some o) :
    L.heap.allocated b = true := Option.isSome_iff_exists.mpr ⟨o, h⟩

theorem object?_none_of_not_allocated {b : Addr} (h : ¬ L.heap.allocated b = true) :
    L.object? b = none := by
  by_contra hne
  obtain ⟨o, ho⟩ := Option.ne_none_iff_exists'.mp hne
  exact h (allocated_of_object? ho)

def maxstackAt (L : State) (b : Addr) : Option Nat := (L.proto? b).map (·.maxstack)

def maxstackOf (L : State) (p : Option Addr) : Option Nat := p.bind L.maxstackAt

theorem windowEnd_eq (L : State) (fr : CallFrame) : L.windowEnd fr =
    match (L.maxstackOf fr.proto).or
      ((fr.cl.bind L.closure?).bind fun cl => L.maxstackOf cl.proto) with
    | some maxstack => fr.base + maxstack
    | none => 0 := by
  have hsize (p : Option Addr) : L.maxstackOf p = (p.bind L.proto?).map (·.maxstack) :=
    (Option.map_bind).symm
  simp only [windowEnd, hsize]
  cases fr.proto.bind L.proto? with
  | some p => rfl
  | none =>
      cases fr.cl.bind L.closure? with
      | none => rfl
      | some cl =>
          simp only [Option.bind_some, Option.map_none, Option.none_or]
          cases cl.proto.bind L.proto? <;> rfl

theorem collect_functions (hL : L.Quiescent) {b : Addr}
    (hb : L.heap.allocated b = true → L.Kept b) :
    L.collect.maxstackAt b = L.maxstackAt b ∧
      L.collect.closure? b = L.closure? b := by
  by_cases halloc : L.heap.allocated b = true
  · have hgraph := sweepMarked_sameGraph hL
    obtain ⟨hproto, hclosure⟩ := mapTable_functions ((collect_object? hL b).1 (hb halloc))
    obtain ⟨hprotos, hclosures⟩ := L.clearDeadStacks_functions
    have hproto' : L.markPhase.sweepMarked.traced.proto? b =
        L.clearDeadStacks.traced.proto? b := by
      simp only [proto?, hgraph.traced_object?]
    have hclosure' : L.markPhase.sweepMarked.traced.closure? b =
        L.clearDeadStacks.traced.closure? b := by
      simp only [closure?, hgraph.traced_object?]
    rw [proto?_traced, proto?_traced, hprotos] at hproto'
    rw [closure?_traced, closure?_traced, hclosures] at hclosure'
    refine ⟨?_, hclosure.trans hclosure'⟩
    have hmax := congrArg (Option.map (·.maxstack)) hproto'
    rw [Option.map_map, Option.map_map] at hmax
    rw [maxstackAt, hproto]
    exact hmax
  · have hfreed : ¬ L.collect.heap.allocated b = true := fun h =>
      halloc ((collect_allocated hL b).mp h).1
    simp only [maxstackAt, proto?, closure?, object?_none_of_not_allocated halloc,
      object?_none_of_not_allocated hfreed, and_self]

theorem kept_of_frame (ha : L.Kept a) (hth : L.thread? a = some th) {fr : CallFrame}
    (hfr : fr ∈ th.frames) {b : Addr} (hb : b ∈ frameRefs fr)
    (halloc : L.heap.allocated b = true) : L.Kept b := by
  obtain ⟨stack, hcleared, -⟩ := clearDeadStacks_thread? hth
  refine .edge ha ?_
  show b ∈ L.clearDeadStacks.references a
  rw [references, thread?_eq_some.mp hcleared]
  refine List.mem_filter.mpr ⟨?_, by rwa [L.clearDeadStacks_cleared.allocated]⟩
  exact List.mem_append_right _ (List.mem_flatMap.mpr ⟨fr, hfr, hb⟩)

theorem closure?_eq_some {c : Addr} {cl : Closure} :
    L.closure? c = some cl ↔ L.object? c = some (.closure cl) := by
  unfold closure?
  cases L.object? c with
  | none => simp
  | some o => cases o <;> simp

theorem kept_of_closure {c b : Addr} {cl : Closure} (hc : L.Kept c)
    (hcl : L.closure? c = some cl) (hb : cl.proto = some b)
    (halloc : L.heap.allocated b = true) : L.Kept b := by
  rw [← (L.clearDeadStacks_functions).2] at hcl
  refine .edge hc ?_
  show b ∈ L.clearDeadStacks.references c
  rw [references, closure?_eq_some.mp hcl]
  refine List.mem_filter.mpr ⟨?_, by rwa [L.clearDeadStacks_cleared.allocated]⟩
  simp [pointers, hb]

theorem windowEnd_congr {M : State} {fr : CallFrame}
    (hproto : ∀ b ∈ frameRefs fr, M.maxstackAt b = L.maxstackAt b)
    (hclosure : ∀ c ∈ frameRefs fr, M.closure? c = L.closure? c)
    (hbody : ∀ c ∈ frameRefs fr, ∀ cl b, L.closure? c = some cl → cl.proto = some b →
      M.maxstackAt b = L.maxstackAt b) : M.windowEnd fr = L.windowEnd fr := by
  have hframe : M.maxstackOf fr.proto = L.maxstackOf fr.proto := by
    cases hp : fr.proto with
    | none => rfl
    | some p => exact hproto p (by simp [frameRefs, hp])
  rw [windowEnd_eq, windowEnd_eq, hframe]
  cases hc : fr.cl with
  | none => rfl
  | some c =>
      have hmem : c ∈ frameRefs fr := by simp [frameRefs, hc]
      rw [Option.bind_some, Option.bind_some, hclosure c hmem]
      cases hcl : L.closure? c with
      | none => rfl
      | some cl =>
          have hsize : M.maxstackOf cl.proto = L.maxstackOf cl.proto := by
            cases hp : cl.proto with
            | none => rfl
            | some p => exact hbody c hmem cl p hcl hp
          rw [Option.bind_some, Option.bind_some, hsize]

theorem windowEnd_collect (hL : L.Quiescent) (ha : L.Kept a) (hth : L.thread? a = some th)
    {fr : CallFrame} (hfr : fr ∈ th.frames) : L.collect.windowEnd fr = L.windowEnd fr := by
  have hkept {b : Addr} (hb : b ∈ frameRefs fr) : L.heap.allocated b = true → L.Kept b :=
    kept_of_frame ha hth hfr hb
  apply windowEnd_congr
  · exact fun b hb => (collect_functions hL (hkept hb)).1
  · exact fun c hc => (collect_functions hL (hkept hc)).2
  · intro c hc cl b hcl hb
    have hkeptc := hkept hc (allocated_of_object? (closure?_eq_some.mp hcl))
    exact (collect_functions hL (kept_of_closure hkeptc hcl hb)).1

theorem threadLiveTop_eq (L : State) (th : Thread) : L.threadLiveTop th =
    max (max th.top (th.frames.foldl (fun limit fr => max limit (L.windowEnd fr)) 0))
      th.stackBase := by
  rw [threadLiveTop, luaFrameHighWater]
  congr 3
  funext limit fr
  rw [windowEnd]
  cases fr.proto.bind L.proto? with
  | some p => rfl
  | none =>
      cases (fr.cl.bind L.closure?).bind fun cl => cl.proto.bind L.proto? with
      | some p => rfl
      | none => exact (Nat.max_zero limit).symm

end State

/-! ## The finalizers -/

def Program.Pops (program : Program) : Prop :=
  ∀ {L L' : State} {a : Addr} {th th' : Thread} {cl : Addr} {nargs n : Nat} {st : Status},
    L.current = some a → L.thread? a = some th →
    L.callClosure program cl nargs (some n) = .ok st L' → L'.thread? a = some th' →
    th'.frames = th.frames

namespace State

variable {L L₁ L₂ L' : State} {a : Addr} {th th₁ th₂ : Thread} {program : Program}
  {leaks : Leaks}

/--
The running thread after finalizers: their calls were made above its live
registers, and left the top where it was or at the end of these.
-/
structure Resumed (a : Addr) (L : State) (th : Thread) (L' : State) (th' : Thread) :
    Prop where
  untouched : Untouched a (L.threadLiveTop th) th.frames L L'
  thread : L'.thread? a = some th'
  frames : th'.frames = th.frames
  stackBase : th'.stackBase = th.stackBase
  status : th'.status = th.status
  top : th'.top = th.top ∨ th'.top = L.threadLiveTop th

theorem Resumed.live (h : Resumed a L th L₁ th₁) :
    L₁.threadLiveTop th₁ = L.threadLiveTop th := by
  have hwater : th₁.frames.foldl (fun limit fr => max limit (L₁.windowEnd fr)) 0 =
      th.frames.foldl (fun limit fr => max limit (L.windowEnd fr)) 0 := by
    rw [h.frames]
    exact List.foldl_ext _ _ _ fun limit fr hfr => by rw [h.untouched.windows fr hfr]
  have htop := h.top
  rw [threadLiveTop_eq] at htop ⊢
  rw [threadLiveTop_eq, hwater, h.stackBase]
  omega

theorem Resumed.trans (h₁ : Resumed a L th L₁ th₁) (h₂ : Resumed a L₁ th₁ L₂ th₂) :
    Resumed a L th L₂ th₂ where
  untouched := by
    have h := h₂.untouched
    rw [h₁.live, h₁.frames] at h
    exact h₁.untouched.trans h
  thread := h₂.thread
  frames := h₂.frames.trans h₁.frames
  stackBase := h₂.stackBase.trans h₁.stackBase
  status := h₂.status.trans h₁.status
  top := by
    have hlive := h₁.live
    have htop₁ := h₁.top
    have htop₂ := h₂.top
    omega

theorem Resumed.of_sameCalls (h : SameCalls L L₁) (hth : L.thread? a = some th) :
    Resumed a L th L₁ th :=
  ⟨.of_sameCalls h, by rw [h.thread?, hth], rfl, rfl, rfl, Or.inl rfl⟩

theorem startFinalizer_sameCalls (L : State) (o : Addr) : SameCalls L (L.startFinalizer o) := by
  have hflag : SameCalls L
      { L with gc := { L.gc with finalized := Function.update L.gc.finalized o true } } :=
    ⟨rfl, rfl, rfl, rfl, rfl, rfl, rfl⟩
  exact hflag.trans (getMetamethod_sameCalls _ _ _)

theorem windowEnd_markFinalizer {fr : CallFrame} (hfr : fr ∈ th.frames) (finalizer : Bool) :
    ∃ fr' ∈ (th.markFinalizer finalizer).frames, ∀ L : State,
      L.windowEnd fr' = L.windowEnd fr := by
  obtain ⟨i, hi, rfl⟩ := List.mem_iff_getElem.mp hfr
  have hi' : i < (th.markFinalizer finalizer).frames.length := by
    simpa [Thread.markFinalizer] using hi
  refine ⟨(th.markFinalizer finalizer).frames[i], List.getElem_mem hi', fun L => ?_⟩
  simp only [Thread.markFinalizer, List.getElem_modify]
  split <;> rfl

theorem modify_concat (f : CallFrame → CallFrame) (init : List CallFrame) (fr : CallFrame) :
    (init ++ [fr]).modify init.length f = init ++ [f fr] := by
  induction init with
  | nil => rfl
  | cons fr' init ih =>
      rw [List.cons_append, List.length_cons, List.modify_succ_cons, ih, List.cons_append]

theorem markFinalizer_restored (hflag : ∀ fr ∈ th.frames.getLast?, fr.finalizer = false)
    (hframes : th₁.frames = (th.markFinalizer true).frames) :
    (th₁.markFinalizer false).frames = th.frames := by
  simp only [Thread.markFinalizer] at hframes ⊢
  rw [hframes, List.length_modify, List.modify_modify_eq]
  obtain hnil | ⟨init, fr, hconcat⟩ := List.eq_nil_or_concat' th.frames
  · rw [hnil]
    rfl
  · have hoff : fr.finalizer = false := hflag fr (by rw [hconcat, List.getLast?_concat]; rfl)
    rw [hconcat, List.length_append, List.length_singleton, Nat.add_sub_cancel, modify_concat]
    congr 2
    cases fr
    cases hoff
    rfl

theorem enterFinalizer_spec (hth : L.thread? a = some th) (f : Addr) (obj : TValue) :
    Untouched a (L.threadLiveTop th) th.frames L (L.enterFinalizer a f obj) ∧
    ∃ t, (L.enterFinalizer a f obj).thread? a = some t ∧
      t.frames = (th.markFinalizer true).frames ∧ t.top = L.threadLiveTop th + 2 ∧
      t.stackBase = th.stackBase ∧ t.status = th.status := by
  have hthread : (L.enterFinalizer a f obj).thread? a = _ := thread?_update hth _
  generalize hlive : L.threadLiveTop th = live at hthread ⊢
  let room : Thread := { th.ensureStack (live + 4) with top := live }
  have hroom : th.SameControl room :=
    (Thread.SameControl.ensureStack th (live + 4)).trans ⟨rfl, rfl, rfl, rfl, rfl⟩
  have hpush : th.SameControl ((room.push (.function f)).push obj) :=
    (hroom.trans (.push _ _)).trans (.push _ _)
  constructor
  · refine .updateThread _ _ fun {s} hs i hi => ?_
    obtain rfl := Option.some.inj (hth.symm.trans hs)
    rw [hlive]
    calc (((room.push (.function f)).push obj).markFinalizer true).slot i
        = (room.push (.function f)).slot i := Thread.slot_push _ _ (Nat.lt_succ_of_lt hi)
      _ = room.slot i := Thread.slot_push _ _ hi
      _ = th.slot i := Thread.slot_ensureStack _ _ _
  · refine ⟨_, hthread, ?_, rfl, hpush.stackBase, hpush.status⟩
    simp only [Thread.markFinalizer]
    rw [hpush.frames]

theorem unmark_spec (hth₁ : L₁.thread? a = some th₁)
    (hflag : ∀ fr ∈ th.frames.getLast?, fr.finalizer = false)
    (hframes : th₁.frames = (th.markFinalizer true).frames) (lim : Nat) :
    ∃ th₂, (if th.frames.isEmpty then L₁
        else L₁.updateThread a (·.markFinalizer false)).thread? a = some th₂ ∧
      Untouched a lim th.frames L₁ (if th.frames.isEmpty then L₁
        else L₁.updateThread a (·.markFinalizer false)) ∧
      th₂.frames = th.frames ∧ th₂.stackBase = th₁.stackBase ∧ th₂.status = th₁.status := by
  by_cases hempty : th.frames.isEmpty = true
  · rw [if_pos hempty]
    have hnil := List.isEmpty_iff.mp hempty
    simp only [Thread.markFinalizer, hnil, List.modify_nil] at hframes
    exact ⟨th₁, hth₁, .refl L₁, hframes.trans hnil.symm, rfl, rfl⟩
  · rw [if_neg hempty]
    exact ⟨_, thread?_update hth₁ _, .updateThread _ _ fun _ _ _ => rfl,
      markFinalizer_restored hflag hframes, rfl, rfl⟩

theorem callFinalizer_resumed (hp : program.Contained leaks) (hpops : program.Pops)
    (hcurrent : L.current = some a) (hth : L.thread? a = some th)
    (hrunning : th.status = .running)
    (hflag : ∀ fr ∈ th.frames.getLast?, fr.finalizer = false) {f : Addr} {obj : TValue}
    (h : L.callFinalizer program a th f obj = .ok () L') : ∃ th', Resumed a L th L' th' := by
  obtain ⟨henter, t, ht, hframes, htop, hbase, hstatus⟩ := enterFinalizer_spec hth f obj
  have hcurrent₁ := henter.current.trans hcurrent
  have hleaves := callClosure_leaves hp hcurrent₁ ht (hstatus.trans hrunning) f 1 (some 0)
  unfold callFinalizer at h
  cases hcall : (L.enterFinalizer a f obj).callClosure program f 1 (some 0) with
  | error e L₂ =>
      rw [hcall] at h
      contradiction
  | ok st L₂ =>
      rw [hcall] at h hleaves
      obtain ⟨hcalled, -, t₂, rest, ht₂, habove, -⟩ := hleaves
      have hpopped : t₂.frames = t.frames := hpops hcurrent₁ ht hcall ht₂
      have hlim : t.top - 1 - 1 = L.threadLiveTop th := by omega
      rw [hlim] at hcalled
      have hcalled' : Untouched a (L.threadLiveTop th) th.frames (L.enterFinalizer a f obj) L₂ :=
        { hcalled with
          windows := fun fr hfr => by
            obtain ⟨fr', hfr', hwindow⟩ := windowEnd_markFinalizer hfr true
            rw [← hwindow, ← hwindow]
            exact hcalled.windows fr' (hframes ▸ hfr') }
      obtain ⟨t₃, ht₃, hunmark, hframes₃, hbase₃, hstatus₃⟩ :=
        unmark_spec ht₂ hflag (hpopped.trans hframes) (L.threadLiveTop th)
      obtain ⟨-, rfl⟩ := EStateM.Result.ok.inj h
      have hctl := Thread.SameControl.setAbsTop t₃ (L.threadLiveTop th)
      refine ⟨_, {
        untouched := ((henter.trans hcalled').trans hunmark).trans
          (.updateThread _ _ fun _ _ hi => Thread.slot_setAbsTop _ hi)
        thread := thread?_update ht₃ _
        frames := hctl.frames.trans hframes₃
        stackBase := ?_
        status := ?_
        top := Or.inr rfl }⟩
      · exact hctl.stackBase.trans (hbase₃.trans (habove.stackBase.trans hbase))
      · exact hctl.status.trans (hstatus₃.trans (habove.status.trans hstatus))

theorem finalizeOne_resumed (hp : program.Contained leaks) (hpops : program.Pops)
    (hcurrent : L.current = some a) (hth : L.thread? a = some th)
    (hrunning : th.status = .running)
    (hflag : ∀ fr ∈ th.frames.getLast?, fr.finalizer = false) {o : Addr}
    (hcalls : ∀ call ∈ turnCalls program L o, call.raised = none) :
    ∃ th', Resumed a L th (finalizeOne program "" L o).2 th' := by
  have hstart := L.startFinalizer_sameCalls o
  have hthread := currentThread?_eq hcurrent hth
  unfold finalizeOne turnCalls at *
  split
  · rename_i f b s hf hs
    obtain ⟨rfl, rfl⟩ := Prod.mk.inj (Option.some.inj (hthread.symm.trans hs))
    have hth₁ : (L.startFinalizer o).thread? a = some th := by rw [hstart.thread?, hth]
    rw [hf, hthread] at hcalls
    have hraised := hcalls _ (List.mem_singleton_self _)
    cases hcall : (L.startFinalizer o).callFinalizer program a th f (L.gcObjectValue o) with
    | error e L₂ =>
        rw [hcall] at hraised
        contradiction
    | ok _ L₂ =>
        obtain ⟨th', hres⟩ := callFinalizer_resumed hp hpops
          (hstart.current.trans hcurrent) hth₁ hrunning hflag hcall
        exact ⟨th', (Resumed.of_sameCalls hstart hth).trans hres⟩
  · exact ⟨th, .of_sameCalls hstart hth⟩

theorem turns_resumed (hp : program.Contained leaks) (hpops : program.Pops) :
    ∀ (pending : List Addr) (L : State) (th : Thread), L.current = some a →
      L.thread? a = some th → th.status = .running →
      (∀ fr ∈ th.frames.getLast?, fr.finalizer = false) →
      (∀ call ∈ finalizerCalls program L pending, call.raised = none) →
      ∃ th', Resumed a L th (turns program L pending) th'
  | [], L, th, _, hth, _, _, _ => ⟨th, .of_sameCalls (.refl L) hth⟩
  | o :: pending, L, th, hcurrent, hth, hrunning, hflag, hcalls => by
      rw [finalizerCalls, List.forall_mem_append] at hcalls
      obtain ⟨th₁, h₁⟩ := finalizeOne_resumed hp hpops hcurrent hth hrunning hflag hcalls.1
      obtain ⟨th₂, h₂⟩ := turns_resumed hp hpops pending _ th₁
        (h₁.untouched.current.trans hcurrent) h₁.thread (h₁.status.trans hrunning)
        (by rwa [h₁.frames]) hcalls.2
      exact ⟨th₂, h₁.trans h₂⟩

theorem runFinalizers_resumed (hp : program.Contained leaks) (hpops : program.Pops)
    (hcurrent : L.current = some a) (hth : L.thread? a = some th)
    (hrunning : th.status = .running)
    (hflag : ∀ fr ∈ th.frames.getLast?, fr.finalizer = false)
    (h : runFinalizers program L = .ok () L') : ∃ th', Resumed a L th L' th' := by
  by_cases hpending : L.gc.finalize = []
  · rw [runFinalizers, if_pos hpending] at h
    obtain ⟨-, rfl⟩ := EStateM.Result.ok.inj h
    exact ⟨th, .of_sameCalls (.refl L) hth⟩
  · have htake : SameCalls L L.takeFinalize := ⟨rfl, rfl, rfl, rfl, rfl, rfl, rfl⟩
    have hdone (M : State) : SameCalls M (M.setRunningFinalizer false) :=
      ⟨rfl, rfl, rfl, rfl, rfl, rfl, rfl⟩
    rw [runFinalizers_eq hpending] at h
    cases hraised : (finalizerCalls program L.takeFinalize L.gc.finalize).findSome?
        (·.raised) with
    | some e =>
        simp only [hraised] at h
        contradiction
    | none =>
        simp only [hraised] at h
        obtain ⟨-, rfl⟩ := EStateM.Result.ok.inj h
        obtain ⟨th₁, h₁⟩ := turns_resumed hp hpops L.gc.finalize L.takeFinalize th hcurrent
          hth hrunning hflag (List.findSome?_eq_none_iff.mp hraised)
        exact ⟨th₁, ((Resumed.of_sameCalls htake hth).trans h₁).trans
          (.of_sameCalls (hdone _) h₁.thread)⟩

/-! ## The safepoint -/

theorem top_le_threadLiveTop (L : State) (th : Thread) : th.top ≤ L.threadLiveTop th := by
  unfold threadLiveTop
  omega

theorem stackLimit_le_threadLiveTop (L : State) (a : Addr) (th : Thread) :
    L.stackLimit a th ≤ L.threadLiveTop th := by
  unfold stackLimit threadLiveTop
  simp only
  split <;> omega

/-- A full collection from rest, with the finalizers after it. -/
theorem fullGc_safepoint (hp : program.Contained leaks) (hpops : program.Pops)
    (hL : L.Quiescent) (hc : L.gc.collecting = false) {fuel : Nat}
    (hfuel : L.heap.length + 3 ≤ fuel) (hcurrent : L.current = some a)
    (hth : L.thread? a = some th) (hrunning : th.status = .running)
    (hflag : ∀ fr ∈ th.frames.getLast?, fr.finalizer = false)
    (h : L.fullGc (runFinalizers program) fuel = .ok () L') :
    ∃ th', Safepoint a L th L' th' ∧
      (th'.top = th.top ∨ th'.top = L.threadLiveTop th) := by
  have hL₀ : (L.setCollecting true).Quiescent := ⟨hL.phase, hL.white, hL.finalize⟩
  rw [fullGc_eq _ hL hc hfuel] at h
  have hth₀ : (L.setCollecting true).thread? a = some th := hth
  have hkept : (L.setCollecting true).Kept a := kept_of_current hcurrent hth₀
  obtain ⟨stack, hsweep⟩ := (collect_collectedTo hL₀).safepoint hkept hth₀
  have hlive : (L.setCollecting true).collect.threadLiveTop { th with stack } =
      L.threadLiveTop th := by
    rw [threadLiveTop_eq, threadLiveTop_eq]
    congr 2
    exact List.foldl_ext _ _ _ fun limit fr hfr => by
      rw [windowEnd_collect hL₀ hkept hth₀ hfr]
      rfl
  cases hrun : runFinalizers program (L.setCollecting true).collect with
  | error e L₂ =>
      rw [hrun] at h
      contradiction
  | ok _ L₂ =>
      rw [hrun] at h
      obtain ⟨-, rfl⟩ := EStateM.Result.ok.inj h
      obtain ⟨th₂, hres⟩ := runFinalizers_resumed hp hpops
        ((collect_current hL₀).trans hcurrent) hsweep.thread hrunning hflag hrun
      obtain ⟨t, ht, hslots⟩ := hres.untouched.slots hsweep.thread
      obtain rfl := Option.some.inj (ht.symm.trans hres.thread)
      have huntouched := hres.untouched
      rw [hlive] at hslots huntouched
      have htop : t.top = th.top ∨ _ := hres.top
      rw [hlive] at htop
      refine ⟨t, ⟨hres.thread, hres.frames, ?_, fun i hi hcaptured => ?_,
        fun i hi hfree => ?_⟩, htop⟩
      · have := top_le_threadLiveTop L th
        rcases htop with htop | htop <;> omega
      · exact hsweep.captured i hi (huntouched.captured i hi hcaptured)
      · have hlim := (L.stackLimit_le_threadLiveTop a th)
        have hfree₁ : ¬ (L.setCollecting true).collect.Captured a i := fun hcaptured =>
          hfree (hsweep.captured i (hi.trans_le hlim) hcaptured)
        exact (hslots i (hi.trans_le hlim) hfree₁).trans (hsweep.slots i hi hfree)

end State

namespace CallRun

open State Thread

variable {r : CallRun}

/-- Slots that the collector leaves alone and that no closure shares. -/
structure Covered (L : State) (a : Addr) (th : Thread) (start n : Nat) : Prop where
  limit : start + n ≤ L.stackLimit a th
  free : ∀ i < n, ¬ L.Captured a (start + i)

theorem Covered.values {L L' : State} {a : Addr} {th th' : Thread} {start n : Nat}
    (h : Covered L a th start n) (hsafe : Safepoint a L th L' th') :
    th'.values start n = th.values start n :=
  Thread.values_congr _ fun i hi =>
    hsafe.slots _ (by have := h.limit; omega) (h.free i hi)

/--
A call whose function and arguments, and later results, are covered when their
safepoints are reached, with the top in place where the number of them is open.
-/
theorem kept_of_covered
    (hroom : r.callBase + r.p.numparams ≤
      grown (grown r.th₁.stack.length (r.callBase + 1 + r.th₁.argCount r.callBase r.b + 8))
        (r.L₁.reloadSize r.th₁))
    (htop : r.b = 0 → r.th₁.top = r.th.top)
    (hargs : Covered r.L r.a r.th r.callBase (1 + r.th.argCount r.callBase r.b))
    (htop₃ : r.retB = 0 → r.th₄.top = r.th₃.top)
    (hresults : Covered r.L₃ r.a r.th₃ (r.callBase + r.retA)
      (r.th₃.retCount (r.callBase + r.retA) r.retB)) : r.Kept := by
  have hcount : r.th₁.argCount r.callBase r.b = r.th.argCount r.callBase r.b := by
    unfold argCount
    split
    · rename_i hb
      rw [htop hb]
    · rfl
  have hargs' : Covered r.L r.a r.th (r.callBase + 1) (r.th.argCount r.callBase r.b) := by
    refine ⟨by have := hargs.limit; omega, fun i hi => ?_⟩
    rw [Nat.add_assoc]
    exact hargs.free (1 + i) (by omega)
  have hsame : r.th₁.args r.callBase r.b = r.args := by
    rw [Thread.args, hcount]
    exact hargs'.values r.safepoint
  have hretCount : r.th₄.retCount (r.callBase + r.retA) r.retB =
      r.th₃.retCount (r.callBase + r.retA) r.retB := by
    unfold retCount
    split
    · rename_i hb
      rw [htop₃ hb]
    · rfl
  have hreturned : r.th₄.returned (r.callBase + r.retA) r.retB = r.results := by
    rw [returned, hretCount]
    exact hresults.values r.safepoint₃
  have hcallee := r.safepoint.slots r.callBase (by have := hargs.limit; omega)
    (hargs.free 0 (by omega))
  exact {
    room := hroom
    callee := hcallee.trans r.callee
    params := fun i _ => by rw [hsame]
    extra := fun _ => by rw [hsame]
    registers := fun i hi hfree => r.safepoint.slots i (by have := hargs.limit; omega) hfree
    results := by
      rw [hreturned]
      exact ⟨rfl, fun _ _ => rfl⟩ }

end CallRun

end Luatier
