import Mathlib.Logic.Relation
import Luatier.Gc.Finalizers
import Luatier.Vm.CallReturn

/-!
# The call protocol

A call of a Lua function by `CALL`, the `VARARG`s of its body and its `RETURN`,
with the safepoints at which `CALL` and `RETURN` may collect garbage first.
-/

namespace Luatier

open Cells Thread

namespace State

/--
What a safepoint may do to the running thread, by a collection and the
finalizers after it: the top may rise, and slots that the collector takes for
dead are cleared.
-/
structure Safepoint (a : Addr) (L : State) (th : Thread) (L' : State) (th' : Thread) :
    Prop where
  thread : L'.thread? a = some th'
  frames : th'.frames = th.frames
  top : th.top ≤ th'.top
  captured : ∀ i < L.threadLiveTop th, L'.Captured a i → L.Captured a i
  slots : ∀ i < L.stackLimit a th, ¬ L.Captured a i → th'.slot i = th.slot i

theorem Safepoint.idle {a : Addr} {L : State} {th : Thread} (hth : L.thread? a = some th) :
    Safepoint a L th L th :=
  ⟨hth, rfl, Nat.le_refl _, fun _ _ => id, fun _ _ _ => rfl⟩

variable {L : State} {th : Thread}

theorem windowEnd_le_highWater {fr : CallFrame} (hfr : fr ∈ th.frames) :
    L.windowEnd fr ≤ L.luaFrameHighWater th := by
  refine (le_foldl (fun limit fr => ?_) th.frames 0).2 fr hfr
  rw [windowEnd]
  cases fr.proto.bind L.proto? with
  | some p => exact ⟨Nat.le_max_left _ _, Nat.le_max_right _ _⟩
  | none =>
      cases (fr.cl.bind L.closure?).bind fun cl => cl.proto.bind L.proto? with
      | some p => exact ⟨Nat.le_max_left _ _, Nat.le_max_right _ _⟩
      | none => exact ⟨Nat.le_refl _, Nat.zero_le _⟩

theorem register_live {ra : Nat} (h : ra < L.frameSize th) :
    th.base + ra < L.threadLiveTop th := by
  unfold frameSize at h
  cases hlast : th.frames.getLast? with
  | none => simp [hlast] at h
  | some fr =>
      cases hp : fr.proto.bind L.proto? with
      | none => simp [hlast, hp] at h
      | some p =>
          have hra : ra < p.maxstack := by simpa [hlast, hp] using h
          have hwindow := windowEnd_le_highWater (L := L) (List.mem_of_getLast? hlast)
          have hbase : th.base = fr.base := by
            rw [Thread.base, hlast]
            rfl
          rw [windowEnd, hp] at hwindow
          unfold threadLiveTop
          simp only at hwindow
          omega

theorem top_le_stackLimit (L : State) (a : Addr) (th : Thread) :
    th.top ≤ L.stackLimit a th := by
  unfold stackLimit
  simp only
  split
  · exact Nat.le_refl _
  · exact Nat.le_max_left _ _

/-! ## The body of a function -/

/--
What the frame on top does between its entry and its `RETURN`: an instruction,
or a call that is back.
-/
def BodyStep (a : Addr) (L L' : State) : Prop :=
  ∃ th th' pc, L.thread? a = some th ∧ L'.thread? a = some th' ∧
    Untouched a th.base th.frames L L' ∧ th'.frames = jump th.frames pc ∧
    min th.base th.top ≤ th'.top

def Body (a : Addr) : State → State → Prop := Relation.ReflTransGen (BodyStep a)

/-- The thread `th'` in the state `L'`, within the body of the frame `fr`. -/
structure InBody (a : Addr) (fs : List CallFrame) (fr : CallFrame) (L : State) (th : Thread)
    (L' : State) (th' : Thread) : Prop where
  thread : L'.thread? a = some th'
  frames : ∃ savedPc, th'.frames = fs ++ [{ fr with savedPc }]
  top : fr.base ≤ th'.top
  captured : ∀ i < fr.base, L'.Captured a i → L.Captured a i
  slots : ∀ i < fr.base, ¬ L.Captured a i → th'.slot i = th.slot i

variable {a : Addr} {fs : List CallFrame} {fr : CallFrame} {L L₁ L₂ : State}
  {th th₁ : Thread}

theorem InBody.step (h : InBody a fs fr L th L₁ th₁) (hstep : BodyStep a L₁ L₂) :
    ∃ th₂, InBody a fs fr L th L₂ th₂ := by
  obtain ⟨t, th₂, pc, ht, hth₂, hu, hframes₂, htop₂⟩ := hstep
  obtain rfl := Option.some.inj (h.thread.symm.trans ht)
  obtain ⟨savedPc, hframes⟩ := h.frames
  have hbase : th₁.base = fr.base := by
    rw [Thread.base, hframes, List.getLast?_concat]
    rfl
  rw [hbase] at hu htop₂
  rw [hframes, jump_concat] at hframes₂
  have htop := h.top
  obtain ⟨t₂, ht₂, hslots⟩ := hu.slots h.thread
  obtain rfl := Option.some.inj (hth₂.symm.trans ht₂)
  refine ⟨th₂, hth₂, ⟨_, hframes₂⟩, by omega, fun i hi hc => ?_, fun i hi hfree => ?_⟩
  · exact h.captured i hi (hu.captured i hi hc)
  · have hfree₁ : ¬ L₁.Captured a i := fun hc => hfree (h.captured i hi hc)
    exact (hslots i hi hfree₁).trans (h.slots i hi hfree)

/-- The callers' frames and registers are as they were when the frame was pushed. -/
theorem Body.inBody (hth : L.thread? a = some th) (hframes : th.frames = fs ++ [fr])
    (htop : fr.base ≤ th.top) (h : Body a L L₁) : ∃ th₁, InBody a fs fr L th L₁ th₁ := by
  induction h with
  | refl => exact ⟨th, hth, ⟨fr.savedPc, hframes⟩, htop, fun _ _ => id, fun _ _ _ => rfl⟩
  | tail _ hstep ih =>
      obtain ⟨th₁, hin⟩ := ih
      exact hin.step hstep

end State

namespace OnState

open State

variable {a : Addr} {fr : CallFrame} {L : State} {th : Thread}

theorem jump_none (frames : List CallFrame) : jump frames none = frames := by
  obtain rfl | ⟨init, fr, rfl⟩ := List.eq_nil_or_concat' frames
  · rfl
  · exact jump_concat init fr none

theorem vararg_ok (hth : L.thread? a = some th) (hlast : th.frames.getLast? = some fr)
    (ra b : Nat) :
    ∃ L' th', vararg a ra b L = .ok () L' ∧ BodyStep a L L' ∧ L'.thread? a = some th' ∧
      (∀ i < if b = 0 then fr.varargs.length else b - 1,
        th'.slot (fr.base + ra + i) = fr.varargs.getD i .nil) ∧
      (b = 0 → th'.top = fr.base + ra + fr.varargs.length) := by
  have hbase : th.base = fr.base := by
    rw [Thread.base, hlast]
    rfl
  generalize hwant : (if b = 0 then fr.varargs.length else b - 1) = nwant
  obtain ⟨t, hload, hctl, htop, hbelow, hread⟩ :=
    OnStack.loadVarargs_ok th fr ra nwant (L.reloadSize th)
  have hth₁ : (L.updateThread a fun _ => t).thread? a = some t := thread?_update hth _
  have hu : Untouched a th.base th.frames L (L.updateThread a fun _ => t) :=
    Untouched.updateThread _ _ fun {s} hs i hi => by
      obtain rfl := Option.some.inj (hth.symm.trans hs)
      exact hbelow i (by omega)
  have hframes : t.frames = jump th.frames none := by
    rw [hctl.frames, jump_none]
  have hrun : vararg a ra b L = (if b = 0 then
      onThread a (OnStack.change (·.setTop (fr.base + ra + nwant))) else pure ())
        (L.updateThread a fun _ => t) := by
    unfold vararg
    rw [thread_bind hth, get_bind]
    simp only [hlast, hwant]
    exact onThread_bind hth hload
  rw [hrun]
  by_cases hb : b = 0
  · rw [if_pos hb] at hwant ⊢
    rw [hwant]
    refine ⟨_, t.setTop (fr.base + ra + nwant), onThread_ok hth₁ rfl, ?_,
      thread?_update hth₁ _, hread, fun _ => rfl⟩
    refine ⟨th, _, none, hth, thread?_update hth₁ _,
      hu.trans (Untouched.updateThread _ _ fun {s} hs i hi => ?_), hframes, ?_⟩
    · obtain rfl := Option.some.inj (hth₁.symm.trans hs)
      rfl
    · show min th.base th.top ≤ fr.base + ra + nwant
      omega
  · rw [if_neg hb]
    refine ⟨_, t, rfl, ⟨th, t, none, hth, hth₁, hu, hframes, ?_⟩, hth₁, hread,
      fun h => absurd h hb⟩
    omega

end OnState

/-! ## Entering the function -/

namespace OnState

open State

variable {L L' : State} {a f : Addr} {th th' : Thread} {p : Proto} {ra b : Nat}
  {nresults : Wanted} {e : String}

/-- The stack as `CALL` has grown it, with the arguments up to the top. -/
def calling (L : State) (th : Thread) (callBase nargs : Nat) : Thread :=
  (th.raiseTop callBase nargs).ensureStack (L.reloadSize th)

theorem calling_control (L : State) (th : Thread) (callBase nargs : Nat) :
    th.SameControl (calling L th callBase nargs) :=
  (SameControl.raiseTop th callBase nargs).trans (.ensureStack _ _)

theorem slot_calling (L : State) (th : Thread) (callBase nargs i : Nat) :
    (calling L th callBase nargs).slot i = th.slot i :=
  (slot_ensureStack _ _ _).trans (th.slot_raiseTop _ _ _)

theorem length_calling (L : State) (th : Thread) (callBase nargs : Nat) :
    (calling L th callBase nargs).stack.length =
      grown (grown th.stack.length (callBase + 1 + nargs + 8)) (L.reloadSize th) := by
  rw [calling, length_ensureStack]
  show grown (th.ensureStack _).stack.length _ = _
  rw [length_ensureStack]

theorem args_fit_calling (L : State) (th : Thread) (callBase nargs : Nat) :
    callBase + 1 + nargs ≤ (calling L th callBase nargs).stack.length := by
  have hsize := grown_ge th.stack.length (callBase + 1 + nargs + 8)
  have hgrown := le_grown (grown th.stack.length (callBase + 1 + nargs + 8))
    (L.reloadSize th)
  rw [length_calling]
  omega

theorem enterCall_eq (hth : L.thread? a = some th) (ra b : Nat) (nresults : Wanted)
    (e : String) :
    enterCall a ra b nresults e L =
      callValue (th.slot (th.base + ra))
        (fun f => enter a f (th.base + ra) (th.argCount (th.base + ra) b) nresults false)
        (enterMeta a (th.slot (th.base + ra)) (th.base + ra)
          (th.argCount (th.base + ra) b) (some (nresults.getD 1)) e)
        (L.updateThread a fun _ =>
          calling L th (th.base + ra) (th.argCount (th.base + ra) b)) := by
  unfold enterCall
  rw [thread_bind hth, get_bind]
  exact onThread_bind hth (OnStack.raiseTop_ok _ _ _ _)

theorem enterCall_ok (b : Nat) (nresults : Wanted) (e : String)
    (hth : L.thread? a = some th)
    (hf : th.slot (th.base + ra) = .function f) (hp : L.luaProto? f = some p)
    (hcap : th.frames.length ≤ 100000)
    (hroom : th.base + ra + p.numparams ≤
      (calling L th (th.base + ra) (th.argCount (th.base + ra) b)).stack.length) :
    ∃ L' th' fr, enterCall a ra b nresults e L = .ok .lua L' ∧
      L.Pushes a th f p (th.base + ra) nresults (th.args (th.base + ra) b) L' th' fr := by
  have hctl := calling_control L th (th.base + ra) (th.argCount (th.base + ra) b)
  obtain ⟨L', th', fr, henter, hpush⟩ := enter_ok nresults false
    (thread?_update hth fun _ =>
      calling L th (th.base + ra) (th.argCount (th.base + ra) b))
    (by rwa [luaProto?_updateThread]) (hctl.frames ▸ hcap)
    (args_fit_calling L th _ _) hroom
  refine ⟨L', th', fr, ?_, ?_⟩
  · rw [enterCall_eq hth, hf]
    exact henter
  · have hargs : (calling L th (th.base + ra) (th.argCount (th.base + ra) b)).values
        (th.base + ra + 1) (th.argCount (th.base + ra) b) = th.args (th.base + ra) b :=
      values_congr _ fun i _ => slot_calling _ _ _ _ _
    exact {
      thread := hpush.thread
      frames := hpush.frames.trans (by rw [hctl.frames])
      cl := hpush.cl
      base := hpush.base
      expected := hpush.expected
      binds := hargs ▸ hpush.binds
      nCcalls := hpush.nCcalls.trans hctl.nCcalls
      top := hpush.top
      captured := hpush.captured.trans (captured_updateThread L a a _)
      slots := fun i hi => (hpush.slots i hi).trans (slot_calling _ _ _ _ _) }

theorem enterClosure_deeper {nargs : Nat} (hth : L.thread? a = some th)
    (hcap : th.frames.length ≤ 100000) (htop : th.top ≤ th.stack.length)
    (h : enterClosure a f nargs nresults L = .ok .lua L') :
    ∃ th', L'.thread? a = some th' ∧ th'.nCcalls = th.nCcalls + 1 := by
  unfold enterClosure at h
  rw [thread_bind hth] at h
  by_cases hunder : th.top < nargs + 1
  · rw [if_pos hunder] at h
    cases h
  rw [if_neg hunder, get_bind] at h
  have hargs : th.top - nargs - 1 + 1 + nargs ≤ th.stack.length := by omega
  cases hproto : (L.closure? f).bind (·.proto) with
  | none =>
      simp only [hproto] at h
      obtain ⟨p, hp, -⟩ := room_of_enter hth hcap hargs h
      unfold luaProto? at hp
      obtain ⟨c, hc, hp⟩ := Option.bind_eq_some_iff.mp hp
      rw [hc, Option.bind_some] at hproto
      rw [hproto] at hp
      cases hp
  | some protoAddr =>
      simp only [hproto] at h
      obtain hincr | ⟨e, hincr⟩ := L.incrCcalls_cases a
      · rw [bind_of_ok (show ofResult (·.incrCcalls a) L = .ok () (L.countCall a) by
          simp only [ofResult, hincr])] at h
        have hcount : (L.countCall a).thread? a = some th.countCall := thread?_update hth _
        obtain ⟨p, hp, hroom⟩ := room_of_enter hcount hcap hargs h
        obtain ⟨L₂, th', fr, henter, hpush⟩ :=
          enter_ok nresults false hcount hp hcap hargs hroom
        rw [henter] at h
        obtain ⟨-, rfl⟩ := EStateM.Result.ok.inj h
        exact ⟨th', hpush.thread, hpush.nCcalls⟩
      · rw [bind_of_error (show ofResult (·.incrCcalls a) L =
          .error (.raised e) (L.countCall a) by simp only [ofResult, hincr])] at h
        cases h

theorem enterMeta_deeper {v : TValue} {funcIdx nargs : Nat} (hth : L.thread? a = some th)
    (hcap : th.frames.length ≤ 100000)
    (h : enterMeta a v funcIdx nargs nresults e L = .ok .lua L') :
    ∃ th', L'.thread? a = some th' ∧ th'.nCcalls = th.nCcalls + 1 := by
  have hsame := L.getMetamethod_sameCalls v .call
  rw [enterMeta, bind_of_ok (show metamethod v .call L =
    .ok (L.getMetamethod v .call).1 (L.getMetamethod v .call).2 from rfl)] at h
  generalize L.getMetamethod v .call = r at hsame h
  obtain ⟨mm, L₁⟩ := r
  have hth₁ : L₁.thread? a = some th := by rw [hsame.thread?, hth]
  cases mm with
  | function g =>
      have hctl := SameControl.insertMm th funcIdx nargs g
      have hsize : (th.insertMm funcIdx nargs g).top ≤
          (th.insertMm funcIdx nargs g).stack.length := by
        have hgrown := grown_ge th.stack.length (funcIdx + 2 + nargs)
        simpa [Thread.insertMm] using hgrown
      have hclosure : enterClosure a g (nargs + 1) nresults
          (L₁.updateThread a fun _ => th.insertMm funcIdx nargs g) = .ok .lua L' :=
        (onThread_bind hth₁ (OnStack.insertMm_ok th funcIdx nargs g)).symm.trans h
      obtain ⟨th', hth', hdeeper⟩ := enterClosure_deeper (thread?_update hth₁ _)
        (hctl.frames ▸ hcap) hsize hclosure
      exact ⟨th', hth', hdeeper.trans (by rw [hctl.nCcalls])⟩
  | _ => cases h

theorem room_of_callee (hth : L.thread? a = some th) (hcap : th.frames.length ≤ 100000)
    (hf : th.slot (th.base + ra) = .function f)
    (h : enterCall a ra b nresults e L = .ok .lua L') :
    ∃ p, L.luaProto? f = some p ∧ th.base + ra + p.numparams ≤
      (calling L th (th.base + ra) (th.argCount (th.base + ra) b)).stack.length := by
  have hctl := calling_control L th (th.base + ra) (th.argCount (th.base + ra) b)
  rw [enterCall_eq hth, hf] at h
  obtain ⟨p, hp, hroom⟩ := room_of_enter
    (thread?_update hth fun _ =>
      calling L th (th.base + ra) (th.argCount (th.base + ra) b))
    (hctl.frames ▸ hcap) (args_fit_calling L th _ _) h
  rw [luaProto?_updateThread] at hp
  exact ⟨p, hp, hroom⟩

theorem callee_of_enterCall (hth : L.thread? a = some th)
    (hcap : th.frames.length ≤ 100000) (h : enterCall a ra b nresults e L = .ok .lua L')
    (hth' : L'.thread? a = some th') (hdepth : th'.nCcalls = th.nCcalls) :
    ∃ f, th.slot (th.base + ra) = .function f := by
  by_contra hv
  have hctl := calling_control L th (th.base + ra) (th.argCount (th.base + ra) b)
  rw [enterCall_eq hth, callValue_of_ne _ _ fun f hf => hv ⟨f, hf⟩] at h
  obtain ⟨th₂, hth₂, hdeeper⟩ := enterMeta_deeper
    (thread?_update hth fun _ =>
      calling L th (th.base + ra) (th.argCount (th.base + ra) b))
    (hctl.frames ▸ hcap) h
  obtain rfl := Option.some.inj (hth'.symm.trans hth₂)
  rw [hctl.nCcalls, hdepth] at hdeeper
  exact absurd (UInt16.left_eq_add.mp hdeeper) (by decide)

end OnState

open State OnState

/--
A call of the Lua function `f`: `CALL` is reached in `L` and passes its
safepoint as `L₁`; the `RETURN` of the function is reached in `L₃` and passes
its own as `L₄`.
-/
structure CallRun where
  a : Addr
  ra : Nat
  b : Nat
  nresults : Wanted
  e : String
  f : Addr
  p : Proto
  L : State
  th : Thread
  L₁ : State
  th₁ : Thread
  retA : Nat
  retB : Nat
  L₃ : State
  th₃ : Thread
  L₄ : State
  th₄ : Thread
  thread : L.thread? a = some th
  callee : th.slot (th.base + ra) = .function f
  proto : L.luaProto? f = some p
  register : ra < L.frameSize th
  safepoint : Safepoint a L th L₁ th₁
  /-- The collector frees no function that is still in its register. -/
  function : th₁.slot (th.base + ra) = .function f → L₁.luaProto? f = some p
  shallow : th₁.frames.length ≤ 100000
  body : ∀ L₂, enterCall a ra b nresults e L₁ = .ok .lua L₂ → Body a L₂ L₃
  thread₃ : L₃.thread? a = some th₃
  safepoint₃ : Safepoint a L₃ th₃ L₄ th₄

namespace CallRun

variable (r : CallRun)

def callBase : Nat := r.th.base + r.ra

def args : List TValue := r.th.args r.callBase r.b

def extra : List TValue := if r.p.isVararg then r.args.drop r.p.numparams else []

def results : List TValue := r.th₃.returned (r.callBase + r.retA) r.retB

/-- The values that are left of `vs` for who wants `nresults` of them. -/
def Delivers (nresults : Wanted) (dest : Nat) (vs : List TValue) (th : Thread) : Prop :=
  th.top = dest + nresults.getD vs.length ∧
    ∀ j < nresults.getD vs.length, th.slot (dest + j) = vs.getD j .nil

/-- Every `VARARG` of the body from `L₂` on reads the extra arguments. -/
def ReadsExtra (L₂ : State) : Prop :=
  ∀ L, Body r.a L₂ L → ∀ ra b, ∃ L' th', vararg r.a ra b L = .ok () L' ∧
    L'.thread? r.a = some th' ∧
    (∀ i < if b = 0 then r.extra.length else b - 1,
      th'.slot (r.callBase + ra + i) = r.extra.getD i .nil) ∧
    (b = 0 → th'.top = r.callBase + ra + r.extra.length)

/-- Arguments and results are passed exactly, and the caller keeps its registers. -/
def Exact : Prop :=
  ∃ L₂ th₂ fr L₅ th₅,
    enterCall r.a r.ra r.b r.nresults r.e r.L₁ = .ok .lua L₂ ∧
    L₂.thread? r.a = some th₂ ∧ th₂.nCcalls = r.th₁.nCcalls ∧
    th₂.frames = r.th.frames ++ [fr] ∧ fr.cl = some r.f ∧ fr.base = r.callBase ∧
    th₂.Binds fr r.p r.args ∧ r.ReadsExtra L₂ ∧
    ret r.a r.retA r.retB r.L₄ = .ok () L₅ ∧ L₅.thread? r.a = some th₅ ∧
    th₅.frames = r.th.frames ∧ Delivers r.nresults r.callBase r.results th₅ ∧
    ∀ i < r.callBase, ¬ r.L.Captured r.a i → th₅.slot i = r.th.slot i

def SeenAs (nresults : Wanted) (vs vs' : List TValue) : Prop :=
  nresults.getD vs'.length = nresults.getD vs.length ∧
    ∀ j < nresults.getD vs.length, vs'.getD j .nil = vs.getD j .nil

/--
The parameters find slots in the stack as `CALL` has grown it, and neither
safepoint changes what the call goes by.
-/
structure Kept : Prop where
  room : r.callBase + r.p.numparams ≤
    grown (grown r.th₁.stack.length (r.callBase + 1 + r.th₁.argCount r.callBase r.b + 8))
      (r.L₁.reloadSize r.th₁)
  callee : r.th₁.slot r.callBase = .function r.f
  params : ∀ i < r.p.numparams,
    (r.th₁.args r.callBase r.b).getD i .nil = r.args.getD i .nil
  extra : r.p.isVararg = true →
    (r.th₁.args r.callBase r.b).drop r.p.numparams = r.args.drop r.p.numparams
  registers : ∀ i < r.callBase, ¬ r.L.Captured r.a i → r.th₁.slot i = r.th.slot i
  results : SeenAs r.nresults r.results (r.th₄.returned (r.callBase + r.retA) r.retB)

variable {r : CallRun} {vs vs' : List TValue} {th' : Thread} {fr : CallFrame}

theorem delivers_iff {nresults : Wanted} {dest : Nat} (h : Delivers nresults dest vs' th') :
    Delivers nresults dest vs th' ↔ SeenAs nresults vs vs' := by
  obtain ⟨htop, hslots⟩ := h
  unfold Delivers SeenAs
  constructor
  · rintro ⟨htop', hslots'⟩
    have hcount : nresults.getD vs'.length = nresults.getD vs.length := by omega
    exact ⟨hcount, fun j hj => (hslots j (hcount ▸ hj)).symm.trans (hslots' j hj)⟩
  · rintro ⟨hcount, hseen⟩
    rw [htop, hcount]
    exact ⟨rfl, fun j hj => (hslots j (hcount.symm ▸ hj)).trans (hseen j hj)⟩

theorem binds_iff {p : Proto} (h : th'.Binds fr p vs') :
    th'.Binds fr p vs ↔
      (∀ i < p.numparams, vs'.getD i .nil = vs.getD i .nil) ∧
      (p.isVararg = true → vs'.drop p.numparams = vs.drop p.numparams) := by
  obtain ⟨hparams, hvarargs⟩ := h
  constructor
  · rintro ⟨hparams', hvarargs'⟩
    refine ⟨fun i hi => (hparams i hi).symm.trans (hparams' i hi), fun hp => ?_⟩
    rwa [hvarargs, if_pos hp, if_pos hp] at hvarargs'
  · rintro ⟨hsame, hextra⟩
    refine ⟨fun i hi => (hparams i hi).trans (hsame i hi), ?_⟩
    rw [hvarargs]
    split
    · rename_i hp
      exact hextra hp
    · rfl

theorem returns {L₂ : State} {th₂ : Thread}
    (hcall : enterCall r.a r.ra r.b r.nresults r.e r.L₁ = .ok .lua L₂)
    (hpush : r.L₁.Pushes r.a r.th₁ r.f r.p r.callBase r.nresults
      (r.th₁.args r.callBase r.b) L₂ th₂ fr) :
    ∃ L₅ th₅, ret r.a r.retA r.retB r.L₄ = .ok () L₅ ∧ L₅.thread? r.a = some th₅ ∧
      th₅.frames = r.th.frames ∧
      Delivers r.nresults r.callBase (r.th₄.returned (r.callBase + r.retA) r.retB) th₅ ∧
      ∀ i < r.callBase, ¬ r.L.Captured r.a i → th₅.slot i = r.th₁.slot i := by
  obtain ⟨th₃, hin⟩ := (r.body L₂ hcall).inBody hpush.thread hpush.frames
    (hpush.base ▸ hpush.top)
  obtain rfl := Option.some.inj (r.thread₃.symm.trans hin.thread)
  obtain ⟨savedPc, hframes₃⟩ := hin.frames
  have hframes₄ : r.th₄.frames = r.th₁.frames ++ [{ fr with savedPc }] :=
    r.safepoint₃.frames.trans hframes₃
  have hbase₄ : r.th₄.base = r.callBase := by
    rw [Thread.base, hframes₄, List.getLast?_concat]
    exact hpush.base
  have hwanted₄ : r.th₄.wanted = r.nresults := by
    rw [Thread.wanted, hframes₄, List.getLast?_concat]
    exact hpush.expected
  obtain ⟨us, hret⟩ := ret_ok r.safepoint₃.thread r.retA r.retB
  rw [hbase₄, hwanted₄] at hret
  obtain ⟨-, us', hclosed⟩ := closeUpvals_spec r.safepoint₃.thread r.callBase 0 []
  refine ⟨_, _, hret, thread?_update hclosed _, ?_, ⟨?_, fun j hj => ?_⟩, fun i hi hfree => ?_⟩
  · show r.th₄.frames.dropLast = _
    rw [hframes₄, List.dropLast_concat, r.safepoint.frames]
  · show r.callBase + _ = r.callBase + _
    rw [Thread.returned, length_values]
  · rw [Thread.returned, length_values] at hj
    rw [slot_placeResults_of_lt _ _ _ _ hj, Thread.returned, getD_values]
    rfl
  · have hlive : i < r.L.threadLiveTop r.th :=
      hi.trans (register_live r.register)
    have hfree₁ : ¬ r.L₁.Captured r.a i := fun hc => hfree (r.safepoint.captured i hlive hc)
    have hfree₂ : ¬ L₂.Captured r.a i := by rwa [hpush.captured]
    have hi₃ : i < fr.base := hpush.base ▸ hi
    have hfree₃ : ¬ r.L₃.Captured r.a i := fun hc => hfree₂ (hin.captured i hi₃ hc)
    have hlimit : i < r.L₃.stackLimit r.a r.th₃ :=
      (hi₃.trans_le hin.top).trans_le (top_le_stackLimit _ _ _)
    calc (({ r.th₄ with openUpvals := us } : Thread).placeResults r.callBase _ _ _).slot i
        = r.th₄.slot i := Thread.slot_placeResults _ _ _ _ hi
      _ = r.th₃.slot i := r.safepoint₃.slots i hlimit hfree₃
      _ = th₂.slot i := hin.slots i hi₃ hfree₂
      _ = r.th₁.slot i := hpush.slots i hi

theorem base_kept (r : CallRun) : r.th₁.base = r.th.base := by
  unfold Thread.base
  rw [r.safepoint.frames]

/-- The function that is called is still in its register, and its parameters find room. -/
theorem enters_of_kept (h : r.Kept) : ∃ L₂ th₂ fr,
    enterCall r.a r.ra r.b r.nresults r.e r.L₁ = .ok .lua L₂ ∧
      r.L₁.Pushes r.a r.th₁ r.f r.p r.callBase r.nresults (r.th₁.args r.callBase r.b)
        L₂ th₂ fr := by
  have hcallBase : r.th₁.base + r.ra = r.callBase := by
    rw [base_kept]
    rfl
  rw [← hcallBase]
  apply enterCall_ok r.b r.nresults r.e r.safepoint.thread (hcallBase ▸ h.callee)
    (r.function h.callee) r.shallow
  rw [length_calling, hcallBase]
  exact h.room

theorem room_of_enters {L₂ : State} {th₂ : Thread}
    (hcall : enterCall r.a r.ra r.b r.nresults r.e r.L₁ = .ok .lua L₂)
    (hth₂ : L₂.thread? r.a = some th₂) (hdepth : th₂.nCcalls = r.th₁.nCcalls)
    (hframes : th₂.frames = r.th.frames ++ [fr]) (hcl : fr.cl = some r.f) :
    r.th₁.slot r.callBase = .function r.f ∧
      r.L₁.Pushes r.a r.th₁ r.f r.p r.callBase r.nresults (r.th₁.args r.callBase r.b)
        L₂ th₂ fr ∧
      r.callBase + r.p.numparams ≤
        (calling r.L₁ r.th₁ r.callBase (r.th₁.argCount r.callBase r.b)).stack.length := by
  have hcallBase : r.th₁.base + r.ra = r.callBase := by
    rw [base_kept]
    rfl
  obtain ⟨g, hg⟩ := callee_of_enterCall r.safepoint.thread r.shallow hcall hth₂ hdepth
  obtain ⟨p, hp, hroom⟩ := room_of_callee r.safepoint.thread r.shallow hg hcall
  obtain ⟨L', th', fr', hcall', hpush⟩ := enterCall_ok r.b r.nresults r.e
    r.safepoint.thread hg hp r.shallow hroom
  rw [hcall'] at hcall
  obtain ⟨-, rfl⟩ := EStateM.Result.ok.inj hcall
  obtain rfl := Option.some.inj (hpush.thread.symm.trans hth₂)
  have hfr : fr' = fr := by
    have happend := hpush.frames.symm.trans hframes
    rw [r.safepoint.frames] at happend
    exact List.singleton_inj.mp (List.append_cancel_left happend)
  subst hfr
  obtain rfl : g = r.f := Option.some.inj (hpush.cl.symm.trans hcl)
  rw [hcallBase] at hg hpush hroom
  obtain rfl : p = r.p := Option.some.inj (hp.symm.trans (r.function hg))
  exact ⟨hg, hpush, hroom⟩

theorem readsExtra {L₂ : State} {th₂ : Thread} (hth₂ : L₂.thread? r.a = some th₂)
    (hframes : th₂.frames = r.th.frames ++ [fr]) (htop : fr.base ≤ th₂.top)
    (hbase : fr.base = r.callBase) (hbinds : th₂.Binds fr r.p r.args) : r.ReadsExtra L₂ := by
  intro L hbody ra b
  obtain ⟨th, hin⟩ := hbody.inBody hth₂ hframes htop
  obtain ⟨savedPc, hframes'⟩ := hin.frames
  obtain ⟨L', th', hread, -, hth', hslots, htop'⟩ := vararg_ok hin.thread
    (show th.frames.getLast? = some { fr with savedPc } by
      rw [hframes', List.getLast?_concat]) ra b
  have hextra : fr.varargs = r.extra := hbinds.varargs
  rw [← hextra, ← hbase]
  exact ⟨L', th', hread, hth', hslots, htop'⟩

/--
A call passes its arguments and results exactly if and only if the parameters
find room and the two safepoints change nothing that the call goes by.
-/
theorem exact_iff (r : CallRun) : r.Exact ↔ r.Kept := by
  constructor
  · rintro ⟨L₂, th₂, fr, L₅, th₅, hcall, hth₂, hdepth, hframes, hcl, -, hbinds, -, hret,
      hth₅, -, hdelivers, hregisters⟩
    obtain ⟨hcallee, hpush, hroom⟩ := room_of_enters hcall hth₂ hdepth hframes hcl
    obtain ⟨L', th', hret', hth', -, hdelivers', hregisters'⟩ := returns hcall hpush
    rw [hret'] at hret
    obtain ⟨-, rfl⟩ := EStateM.Result.ok.inj hret
    obtain rfl := Option.some.inj (hth₅.symm.trans hth')
    obtain ⟨hparams, hextra⟩ := (binds_iff hpush.binds).mp hbinds
    exact {
      room := by rwa [length_calling] at hroom
      callee := hcallee
      params := hparams
      extra := hextra
      registers := fun i hi hfree =>
        (hregisters' i hi hfree).symm.trans (hregisters i hi hfree)
      results := (delivers_iff hdelivers').mp hdelivers }
  · intro h
    obtain ⟨L₂, th₂, fr, hcall, hpush⟩ := enters_of_kept h
    obtain ⟨L₅, th₅, hret, hth₅, hframes₅, hdelivers, hregisters⟩ := returns hcall hpush
    have hframes : th₂.frames = r.th.frames ++ [fr] := by
      rw [hpush.frames, r.safepoint.frames]
    have hbinds := (binds_iff hpush.binds).mpr ⟨h.params, h.extra⟩
    refine ⟨L₂, th₂, fr, L₅, th₅, hcall, hpush.thread, hpush.nCcalls, hframes, hpush.cl,
      hpush.base, hbinds, ?_, hret, hth₅, hframes₅,
      (delivers_iff hdelivers).mpr h.results, fun i hi hfree => ?_⟩
    · exact readsExtra hpush.thread hframes (hpush.base ▸ hpush.top) hpush.base hbinds
    · exact (hregisters i hi hfree).trans (h.registers i hi hfree)

/-! ## Calls at the end of a stack -/

/--
The main function of a new coroutine calls a function of so many parameters
with one argument, and wants one result.
-/
def coroutineThread : Thread where
  stack := .function 2 :: .integer 7 :: List.replicate 62 .nil
  frames := [{ cl := some 4, proto := some 5 }]
  top := 2
  status := .running

def coroutineCall (numparams : Nat) : State where
  current := some 1
  heap :=
    [(1, .thread coroutineThread),
    (2, .closure { proto := some 3 }),
    (3, .proto { maxstack := numparams, numparams }),
    (4, .closure { proto := some 5 }),
    (5, .proto { maxstack := 2 })]

theorem coroutineCall_size (numparams : Nat) :
    grown (grown coroutineThread.stack.length 10)
      ((coroutineCall numparams).reloadSize coroutineThread) = 64 := by
  rfl

theorem coroutineCall_full {numparams : Nat} (hfull : 64 < numparams) (L₂ : State) :
    enterCall 1 0 2 (some 1) "" (coroutineCall numparams) ≠ .ok .lua L₂ := by
  intro h
  have hth : (coroutineCall numparams).thread? 1 = some coroutineThread := rfl
  obtain ⟨p, hp, hroom⟩ := room_of_callee hth (by decide)
    (show coroutineThread.slot _ = .function 2 from rfl) h
  obtain rfl := Option.some.inj hp
  rw [length_calling] at hroom
  have hsize := coroutineCall_size numparams
  change 0 + numparams ≤ grown (grown coroutineThread.stack.length 10)
    ((coroutineCall numparams).reloadSize coroutineThread) at hroom
  omega

/-- No collection is due, and the body comes to its `RETURN` in `L₃`. -/
def coroutineRun (numparams : Nat) (L₃ : State) (th₃ : Thread)
    (hth₃ : L₃.thread? 1 = some th₃)
    (hbody : ∀ L₂, enterCall 1 0 2 (some 1) "" (coroutineCall numparams) = .ok .lua L₂ →
      Body 1 L₂ L₃) : CallRun where
  a := 1
  ra := 0
  b := 2
  nresults := some 1
  e := ""
  f := 2
  p := { maxstack := numparams, numparams }
  L := coroutineCall numparams
  th := coroutineThread
  L₁ := coroutineCall numparams
  th₁ := coroutineThread
  retA := 0
  retB := 2
  L₃ := L₃
  th₃ := th₃
  L₄ := L₃
  th₄ := th₃
  thread := rfl
  callee := rfl
  proto := rfl
  register := by
    show 0 < 2
    decide
  safepoint := .idle rfl
  function := fun _ => rfl
  shallow := by decide
  body := hbody
  thread₃ := hth₃
  safepoint₃ := .idle hth₃

theorem exact_iff_coroutineRun : ∃ r : CallRun, r.p.numparams = 64 ∧
    r.args = [.integer 7] ∧ r.results = [.integer 7] ∧ r.Exact := by
  have hth : (coroutineCall 64).thread? 1 = some coroutineThread := rfl
  have hroom : coroutineThread.base + 0 + 64 ≤
      (calling (coroutineCall 64) coroutineThread (coroutineThread.base + 0)
        (coroutineThread.argCount (coroutineThread.base + 0) 2)).stack.length := by
    rw [length_calling]
    exact (coroutineCall_size 64).ge
  obtain ⟨L₂, th₂, fr, hcall, hpush⟩ := enterCall_ok 2 (some 1) "" hth
    (show coroutineThread.slot _ = .function 2 from rfl)
    (show (coroutineCall 64).luaProto? 2 = some { maxstack := 64, numparams := 64 } from rfl)
    (by decide) hroom
  have hbody : ∀ L, enterCall 1 0 2 (some 1) "" (coroutineCall 64) = .ok .lua L →
      Body 1 L L₂ := by
    intro L h
    rw [hcall] at h
    obtain ⟨-, rfl⟩ := EStateM.Result.ok.inj h
    exact .refl
  have hresult : th₂.slot 0 = .integer 7 := by
    have hparam := hpush.binds.params 0 (by decide)
    rw [hpush.base] at hparam
    exact hparam
  refine ⟨coroutineRun 64 L₂ th₂ hpush.thread hbody, rfl, rfl, congrArg (· :: []) hresult,
    (exact_iff _).mpr ?_⟩
  rw [length_calling] at hroom
  exact ⟨hroom, rfl, fun _ _ => rfl, fun _ => rfl, fun _ _ _ => rfl, rfl, fun _ _ => rfl⟩

/-- A function of more parameters than the coroutine has slots is not entered. -/
theorem crowded_call_not_exact : ¬ ∀ r : CallRun, r.Exact := by
  intro h
  have hfull := coroutineCall_full (show 64 < 65 by decide)
  obtain ⟨L₂, th₂, fr, L₅, th₅, hcall, -⟩ := h (coroutineRun 65 (coroutineCall 65)
    coroutineThread rfl fun L₂ hcall => absurd hcall (hfull L₂))
  exact hfull L₂ hcall

end CallRun

end Luatier
