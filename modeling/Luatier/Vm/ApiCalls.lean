import Luatier.Vm.Results
import Luatier.Vm.StackAccess

/-!
# Calls of `lua_pcall` that fail

The error path of `lua_pcall` sets the top and pushes the error value.  It
drops no frame and closes no upvalue.
-/

namespace Luatier

open Thread (grown)

namespace State

variable {program handler : Program} {leaks hleaks : Leaks} {L L₁ L₂ L' : State}
  {a : Addr} {th th₁ th' : Thread} {funcIdx n : Nat} {rest : List CallFrame}
  {mem : Storage}

structure Caught (L : State) (a : Addr) (th : Thread) (funcIdx : Nat) (L' : State) :
    Prop where
  untouched : Untouched a funcIdx th.frames L L'
  upval? : L'.upval? = L.upval?
  thread : ∃ th', L'.thread? a = some th' ∧ th.SameControl th' ∧ th'.top = funcIdx

theorem takeErrorObject_upval? (L : State) (e : String) :
    (L.takeErrorObject e).after.upval? = L.upval? := by
  have hintern : ((L.intern e).bind fun s L =>
      (.ok (.string s) L : Result TValue)).after.upval? = L.upval? := by
    rw [after_bindOk]
    exact (L.intern_sameCalls e).upval?
  unfold takeErrorObject
  split
  · split
    · exact upval?_updateThread L _ _
    · exact hintern
  · exact hintern

theorem takeErrorObject_stack (hcurrent : L.current = some a) (hth : L.thread? a = some th)
    {e : String} {v : TValue} (h : L.takeErrorObject e = .ok v L₁) :
    L₁.current = some a ∧ ∃ th₁, L₁.thread? a = some th₁ ∧ th₁.stack = th.stack ∧
      th₁.stackBase = th.stackBase := by
  rw [takeErrorObject, currentThread?_eq hcurrent hth] at h
  simp only at h
  split at h
  · cases h
    exact ⟨current_update hcurrent _, _, thread?_update hth _, rfl, rfl⟩
  · have hsame := L.intern_sameCalls e
    cases hi : L.intern e with
    | error e' L₂ =>
        rw [hi] at h
        cases h
    | ok s L₂ =>
        rw [hi] at h hsame
        cases h
        exact ⟨hsame.current.trans hcurrent, th, by rw [← hth, ← hsame.thread?]; rfl, rfl,
          rfl⟩

theorem settop_eq (hcurrent : L.current = some a) {idx : Int} (h0 : 0 ≤ idx) :
    L.settop idx = L.updateThread a fun th =>
      th.setAbsTop (th.stackBase + idx.toNat) := by
  rw [settop, withCurrent_eq hcurrent, absindex, if_pos h0]

theorem settop_caught (hcurrent : L.current = some a) (hth : L.thread? a = some th)
    {idx : Int} (h0 : 0 ≤ idx) (hidx : th.stackBase + idx.toNat = funcIdx) :
    L.Caught a th funcIdx (L.settop idx) := by
  rw [settop_eq hcurrent h0]
  have hset := thread?_update hth fun th => th.setAbsTop (th.stackBase + idx.toNat)
  rw [hidx] at hset
  refine ⟨Untouched.updateThread L _ fun {t} ht i hi => ?_, upval?_updateThread L a _, _,
    hset, .setAbsTop th funcIdx, rfl⟩
  obtain rfl : th = t := Option.some.inj (hth.symm.trans ht)
  refine th.slot_setAbsTop ?_
  rw [hidx]
  exact hi

/-- The error value is taken, and the top set back to the slot of the function. -/
theorem taken_caught (hcurrent : L.current = some a) (hth : L.thread? a = some th)
    {e : String} {v : TValue} {idx : Int} (h0 : 0 ≤ idx)
    (hidx : th.stackBase + idx.toNat = funcIdx)
    (htaken : L.takeErrorObject e = .ok v L₁) :
    L.Caught a th funcIdx (L₁.settop idx) := by
  obtain ⟨hu, th₁, hth₁, hcontrol, -⟩ :=
    takeErrorObject_spec hcurrent hth e funcIdx th.frames
  have hupval := takeErrorObject_upval? L e
  rw [htaken, Result.after_ok] at hu hth₁ hupval
  obtain ⟨hu₂, hupval₂, th₂, hth₂, hcontrol₂, htop₂⟩ := settop_caught
    (hu.current.trans hcurrent) hth₁ h0 (hcontrol.stackBase ▸ hidx)
  rw [hcontrol.frames] at hu₂
  exact ⟨hu.trans hu₂, hupval₂.trans hupval, th₂, hth₂, hcontrol.trans hcontrol₂, htop₂⟩

theorem Caught.same (h : L.Caught a th funcIdx L₁) (hsame : SameCalls L₁ L₂) :
    L.Caught a th funcIdx L₂ := by
  obtain ⟨hu, hupval, th₁, hth₁, hcontrol, htop⟩ := h
  exact ⟨hu.trans (.of_sameCalls hsame), hsame.upval?.trans hupval, th₁,
    by rw [hsame.thread?, hth₁], hcontrol, htop⟩

theorem Caught.push (h : L.Caught a th funcIdx L₁) (hcurrent : L.current = some a)
    (v : TValue) :
    Untouched a funcIdx th.frames L (L₁.push v) ∧ (L₁.push v).upval? = L.upval? ∧
    ∃ th', (L₁.push v).thread? a = some th' ∧ th.SameControl th' ∧
      th'.top = funcIdx + 1 ∧ th'.slot funcIdx = v := by
  obtain ⟨hu, hupval, th₁, hth₁, hcontrol, htop⟩ := h
  rw [State.push, withCurrent_eq (hu.current.trans hcurrent)]
  refine ⟨hu.trans (Untouched.updateThread L₁ _ fun {t} ht i hi => ?_),
    (upval?_updateThread L₁ a _).trans hupval, _, thread?_update hth₁ _,
    hcontrol.trans (.push th₁ v), by rw [Thread.top_push, htop], ?_⟩
  · obtain rfl : th₁ = t := Option.some.inj (hth₁.symm.trans ht)
    exact th₁.slot_push v (by omega)
  · rw [← htop]
    exact th₁.slot_push_self v

theorem Caught.callHandler (hp : handler.Contained hleaks) (hq : handler.Placing)
    (h : L.Caught a th funcIdx L₁) (hcurrent : L.current = some a)
    (hrunning : th.status = .running) (w : TValue) (mh : Addr) (v : TValue) :
    ∃ k, L.LeavesAbove a th funcIdx th.frames k
      (((L₁.push w).push v).callClosure handler mh 1 (some 1)) ∧
    ∀ {L' th'}, ((L₁.push w).push v).callClosure handler mh 1 (some 1) =
      .ok .ok L' → L'.thread? a = some th' → th'.PlacedAt funcIdx 1 th.frames := by
  obtain ⟨hu, -, th₁, hth₁, hcontrol, htop⟩ := h
  have hcurrent₁ := hu.current.trans hcurrent
  have hpush : (L₁.push w).push v =
      (L₁.updateThread a (·.push w)).updateThread a (·.push v) := by
    rw [State.push, State.push, withCurrent_eq hcurrent₁,
      withCurrent_eq (current_update hcurrent₁ _)]
  rw [hpush]
  have hth₂ := thread?_update (thread?_update hth₁ (·.push w)) (·.push v)
  have hcontrol₂ := (hcontrol.trans (.push th₁ w)).trans
    (.push (th₁.push w) v)
  have htop₂ : ((th₁.push w).push v).top - 1 - 1 = funcIdx := by
    rw [Thread.top_push, Thread.top_push, htop]
    rfl
  have hu₂ : Untouched a funcIdx th.frames L
      ((L₁.updateThread a (·.push w)).updateThread a (·.push v)) := by
    refine hu.trans ((Untouched.updateThread L₁ _ fun {t} ht i hi => ?_).trans
      (Untouched.updateThread _ _ fun {t} ht i hi => ?_))
    · obtain rfl : th₁ = t := Option.some.inj (hth₁.symm.trans ht)
      exact th₁.slot_push _ (by omega)
    · obtain rfl := Option.some.inj ((thread?_update hth₁ _).symm.trans ht)
      exact Thread.slot_push _ _ (by rw [Thread.top_push]; omega)
  have hcall := callClosure_leaves hp (hu₂.current.trans hcurrent) hth₂
    (hcontrol₂.status.trans hrunning) mh 1 (some 1)
  rw [htop₂, hcontrol₂.frames] at hcall
  have habove : th.Above funcIdx th.frames 0 ((th₁.push w).push v) [] :=
    hcontrol₂.above (List.append_nil _).symm fun _ hfr => absurd hfr List.not_mem_nil
  refine ⟨_, LeavesAbove.after hu₂ habove hcall, fun hr hth' => ?_⟩
  have hplaced := callClosure_placed hp hq (hu₂.current.trans hcurrent) hth₂
    (hcontrol₂.status.trans hrunning) hr hth'
  rwa [htop₂, hcontrol₂.frames] at hplaced

/-- The message handler that the `catch` block finds, where it does, and the error value. -/
def apiHandler? (L : State) (funcIdx errfunc : Int) (e : String) :
    Option (State × Addr × TValue) :=
  match L.takeErrorObject e with
  | .error _ _ => none
  | .ok emsg L =>
      let L := L.settop (funcIdx - 1)
      if 0 < errfunc then
        match L.at? errfunc with
        | some (.function mh) => some (L, mh, emsg)
        | _ => none
      else none

/-- The frames that the message handler of `lua_pcall` leaves behind. -/
def apiHandlerFrames (handler : Program) (mem : Storage) (L : State)
    (funcIdx errfunc : Int) (e : String) : Nat :=
  match L.apiHandler? funcIdx errfunc e with
  | some (L, mh, emsg) =>
      ((L.placeHandler mem mh emsg).callClosure handler (L.placedHandler mem mh emsg) 1
        (some 1)).after.frameDepth - L.frameDepth
  | none => 0

structure ApiCaught (L : State) (a : Addr) (th : Thread) (funcIdx n : Nat)
    (L' : State) : Prop where
  untouched : Untouched a funcIdx th.frames L L'
  thread : ∃ th' rest k, L'.thread? a = some th' ∧
    th.Above funcIdx th.frames k th' rest ∧ rest.length = n ∧
    (rest = [] → th'.top = funcIdx + 1)

theorem Caught.pushed (h : L.Caught a th funcIdx L₁) (hcurrent : L.current = some a)
    (v : TValue) : L.ApiCaught a th funcIdx 0 (L₁.push v) := by
  obtain ⟨hu, -, th', hth', hcontrol, htop, -⟩ := h.push hcurrent v
  exact ⟨hu, th', [], 0, hth', hcontrol.above (List.append_nil _).symm
    (fun _ hfr => absurd hfr List.not_mem_nil), rfl, fun _ => htop⟩

theorem Caught.handled (hp : handler.Contained hleaks) (hq : handler.Placing)
    (h : L.Caught a th funcIdx L₁) (hcurrent : L.current = some a)
    (hrunning : th.status = .running) {idx : Int} (h0 : 0 ≤ idx)
    (hidx : th.stackBase + idx.toNat = funcIdx) (w : TValue) (mh : Addr) (v : TValue) {st : Int}
    (hr : (match ((L₁.push w).push v).callClosure handler mh 1 (some 1) with
      | .ok _ L => (.ok luaErrRun L : Result Int)
      | .error e L => (L.takeErrorObject e).bind fun emsg L =>
          .ok luaErrErr ((L.settop idx).push emsg)) = .ok st L') :
    L.ApiCaught a th funcIdx
      ((((L₁.push w).push v).callClosure handler mh 1
        (some 1)).after.frameDepth - L₁.frameDepth) L' := by
  obtain ⟨k, hleaves, hplaced⟩ := h.callHandler hp hq hcurrent hrunning w mh v
  obtain ⟨hu, -, th₁, hth₁, hcontrol, -⟩ := h
  have hdepth₁ : L₁.frameDepth = th.frames.length := by
    rw [frameDepth_eq (hu.current.trans hcurrent) hth₁, hcontrol.frames]
  obtain ⟨hu₂, hfinished, th₂, rest, hth₂, habove, htop⟩ := hleaves
  cases hc : ((L₁.push w).push v).callClosure handler mh 1 (some 1) with
  | ok s L₂ =>
      rw [hc] at hr hth₂ hu₂
      obtain rfl := hfinished s L₂ hc
      cases hr
      have hdepth₂ : L'.frameDepth = th₂.frames.length :=
        frameDepth_eq (hu₂.current.trans hcurrent) hth₂
      refine ⟨hu₂, th₂, rest, k, hth₂, habove, ?_, fun hrest => ?_⟩
      · rw [Result.after_ok, hdepth₁, hdepth₂, habove.frames, List.length_append,
          Nat.add_sub_cancel_left]
      · obtain ⟨-, htop₂⟩ | ⟨e', more, hframes, -⟩ := hplaced hc hth₂
        · exact htop₂
        · rw [habove.frames, hrest] at hframes
          cases List.append_cancel_left hframes
  | error e L₂ =>
      rw [hc] at hr hth₂ hu₂
      simp only [Result.after_error] at hth₂ hu₂
      have hcurrent₂ := hu₂.current.trans hcurrent
      have hdepth₂ : L₂.frameDepth = th₂.frames.length := frameDepth_eq hcurrent₂ hth₂
      cases ht : L₂.takeErrorObject e with
      | error e' L₃ =>
          simp only [ht, Result.bind] at hr
          contradiction
      | ok emsg L₃ =>
          simp only [ht, Result.bind] at hr
          cases hr
          have hidx₂ : th₂.stackBase + idx.toNat = funcIdx := by
            rw [habove.stackBase]
            exact hidx
          obtain ⟨hu₃, -, th₃, hth₃, hcontrol₃, htop₃, -⟩ :=
            (taken_caught hcurrent₂ hth₂ h0 hidx₂ ht).push hcurrent₂ emsg
          refine ⟨hu₂.trans (hu₃.mono (Nat.le_refl _) ?_), th₃, rest, k, hth₃,
            ⟨hcontrol₃.frames.trans habove.frames, habove.bases,
              hcontrol₃.stackBase.trans habove.stackBase,
              hcontrol₃.nny.trans habove.nny, hcontrol₃.nCcalls.trans habove.nCcalls,
              hcontrol₃.status.trans habove.status⟩, ?_, fun _ => htop₃⟩
          · rw [habove.frames]
            exact List.subset_append_left _ _
          · rw [Result.after_error, hdepth₁, hdepth₂, habove.frames, List.length_append,
              Nat.add_sub_cancel_left]

theorem apiCatch_spec (hp : handler.Contained hleaks) (hq : handler.Placing)
    (hcurrent : L.current = some a) (hth : L.thread? a = some th)
    (hrunning : th.status = .running) {idx errfunc : Int} (h0 : 0 ≤ idx - 1)
    (hidx : th.stackBase + (idx - 1).toNat = funcIdx) {e : String} {st : Int}
    (hr : L.apiCatch handler mem idx errfunc e = .ok st L') :
    L.ApiCaught a th funcIdx (apiHandlerFrames handler mem L idx errfunc e) L' ∧
    (errfunc ≤ 0 → L'.upval? = L.upval? ∧ ∃ v L₂, L.takeErrorObject e = .ok v L₂ ∧
      L'.register a funcIdx = v) := by
  unfold apiCatch at hr
  unfold apiHandlerFrames apiHandler?
  cases ht : L.takeErrorObject e with
  | error e' L₁ =>
      rw [ht] at hr
      contradiction
  | ok v L₁ =>
      have hcaught := taken_caught hcurrent hth h0 hidx ht
      simp only [ht, Result.bind] at hr
      split at hr
      · rename_i herr
        refine ⟨?_, fun h => absurd herr (by omega)⟩
        simp only [if_pos herr]
        cases hat : (L₁.settop (idx - 1)).at? errfunc with
        | none =>
            rw [hat] at hr
            contradiction
        | some mhv =>
            cases mhv with
            | function mh =>
                simp only [hat] at hr
                exact hcaught.handled hp hq hcurrent hrunning h0 hidx _ _ v hr
            | _ =>
                simp only [hat] at hr
                cases hr
                exact hcaught.pushed hcurrent v
      · rename_i herr
        simp only [if_neg herr]
        cases hr
        refine ⟨hcaught.pushed hcurrent v, fun _ => ?_⟩
        obtain ⟨-, hupval, th', hth', -, -, hslot⟩ := hcaught.push hcurrent v
        refine ⟨hupval, v, L₁, rfl, ?_⟩
        rw [register, hth']
        exact hslot

theorem apiCall_cases (hp : program.Contained leaks) (hcurrent : L.current = some a)
    (hth : L.thread? a = some th) (hrunning : th.status = .running) {nargs : Nat}
    (nresults : Wanted) {idx : Int} (h0 : 0 ≤ idx - 1)
    (hidx : th.stackBase + (idx - 1).toNat = th.top - nargs - 1) :
    (∃ k e L₁, L.apiCall program idx nargs nresults = .error e L₁ ∧
      L.LeavesAbove a th (th.top - nargs - 1) th.frames k (.error e L₁)) ∨
    (∃ s L₁, L.apiCall program idx nargs nresults = .ok (Status.code s) L₁) ∨
    ∃ L₁, L.apiCall program idx nargs nresults = .ok luaErrRun L₁ ∧
      L.ApiCaught a th (th.top - nargs - 1) 0 L₁ := by
  unfold State.apiCall
  cases L.at? idx with
  | none =>
      exact Or.inl ⟨0, _, L, rfl, (Untouched.refl L).raises hth (th.above_self _)
        (by omega) _⟩
  | some v =>
      cases v with
      | function cl =>
          have hcall := callClosure_leaves hp hcurrent hth hrunning cl nargs nresults
          simp only
          cases hc : L.callClosure program cl nargs nresults with
          | error e L₁ =>
              rw [hc] at hcall
              exact Or.inl ⟨_, e, L₁, rfl, hcall⟩
          | ok s L₁ => exact Or.inr (Or.inl ⟨s, L₁, rfl⟩)
      | _ =>
          have hcaught := settop_caught hcurrent hth h0 hidx
          have hsame := (L.settop (idx - 1)).intern_sameCalls "pcall: not a function"
          cases hi : (L.settop (idx - 1)).intern "pcall: not a function" with
          | error e L₁ =>
              rw [hi, Result.after_error] at hsame
              obtain ⟨hu, -, th₁, hth₁, hcontrol, htop⟩ := hcaught.same hsame
              exact Or.inl ⟨0, e, L₁, rfl, hu.raises hth₁ (hcontrol.above
                (List.append_nil _).symm fun _ hfr => absurd hfr List.not_mem_nil)
                htop.ge e⟩
          | ok s L₁ =>
              rw [hi, Result.after_ok] at hsame
              exact Or.inr (Or.inr ⟨_, rfl, (hcaught.same hsame).pushed hcurrent _⟩)

/-! ## When the error path is clean -/

/-- The exception that `lua_pcall` catches, and the state it is caught in. -/
def apiThrown (program : Program) (L : State) (nargs : Nat) (nresults : Wanted) :
    Option (String × State) :=
  match L.apiCall program (L.gettop - nargs) nargs nresults with
  | .error e L => some (e, L)
  | .ok _ _ => none

def apiFramesLeft (program : Program) (L : State) (nargs : Nat) (nresults : Wanted) :
    Nat :=
  match apiThrown program L nargs nresults with
  | some (_, L₁) => L₁.frameDepth - L.frameDepth
  | none => 0

def apiHandlerLeft (program handler : Program) (mem : Storage) (L : State) (nargs : Nat)
    (nresults : Wanted) (errfunc : Int) : Nat :=
  match apiThrown program L nargs nresults with
  | some (e, L₁) => apiHandlerFrames handler mem L₁ (L.gettop - nargs) errfunc e
  | none => 0

/-- What a protected call is to leave, with the function at slot `funcIdx`. -/
structure ApiRestored (L L' : State) (a : Addr) (th : Thread) (funcIdx : Nat)
    (errfunc : Int) (thrown : Option (String × State)) : Prop where
  current : L'.current = L.current
  thread : ∃ th', L'.thread? a = some th' ∧ th'.frames = th.frames ∧
    th'.stackBase = th.stackBase ∧ th'.top = funcIdx + 1
  registers : ∀ i < funcIdx, ¬ L.Captured a i → L'.register a i = L.register a i
  closed : ∀ e L₁, thrown = some (e, L₁) → ∀ u uv, L₁.upval? u = some uv →
    uv.isOpen = true → uv.thread = some a → funcIdx ≤ uv.stackIndex →
    ∃ uv', L'.upval? u = some uv' ∧ uv'.isOpen = false ∧
      uv'.closed = L₁.register a uv.stackIndex
  value : errfunc ≤ 0 → ∀ e L₁, thrown = some (e, L₁) →
    ∃ v L₂, L₁.takeErrorObject e = .ok v L₂ ∧ L'.register a funcIdx = v

/-- No closure shares a slot from the function on when the exception is caught. -/
def ApiClosed (a : Addr) (funcIdx : Nat) (thrown : Option (String × State)) : Prop :=
  ∀ e L₁, thrown = some (e, L₁) → ∀ i, funcIdx ≤ i → ¬ L₁.Captured a i

theorem funcIdx_slot (hcurrent : L.current = some a) (hth : L.thread? a = some th)
    {nargs : Nat} (hroom : th.stackBase + nargs + 1 ≤ th.top) :
    0 ≤ (L.gettop - nargs - 1 : Int) ∧
      th.stackBase + (L.gettop - nargs - 1 : Int).toNat = th.top - nargs - 1 := by
  have htop : (L.gettop : Int) = th.top - th.stackBase := by
    rw [gettop, hcurrent, Option.bind_some, hth, Option.map_some, Option.getD_some]
    omega
  omega

theorem apiThrown_current (hp : program.Contained leaks) (hcurrent : L.current = some a)
    (hth : L.thread? a = some th) (hrunning : th.status = .running) {nargs : Nat}
    (nresults : Wanted) (hroom : th.stackBase + nargs + 1 ≤ th.top) {e : String}
    (hthrown : apiThrown program L nargs nresults = some (e, L₁)) :
    L₁.current = some a ∧ ∃ th₁, L₁.thread? a = some th₁ ∧
      th₁.stackBase + (L.gettop - nargs - 1 : Int).toNat = th.top - nargs - 1 := by
  obtain ⟨h0, hidx⟩ := funcIdx_slot hcurrent hth hroom
  unfold apiThrown at hthrown
  obtain ⟨k, e', L', hcall, hleaves⟩ | ⟨s, L', hcall⟩ | ⟨L', hcall, -⟩ :=
    apiCall_cases hp hcurrent hth hrunning nresults h0 hidx
  · rw [hcall] at hthrown
    cases hthrown
    obtain ⟨hu, -, th₁, rest, hth₁, habove, -⟩ := hleaves
    exact ⟨hu.current.trans hcurrent, th₁, hth₁, by rw [habove.stackBase, hidx]⟩
  · rw [hcall] at hthrown
    cases hthrown
  · rw [hcall] at hthrown
    cases hthrown

theorem luaPcall_restores (callee handler : Callee) (mem : Storage)
    (hcurrent : L.current = some a) (hth : L.thread? a = some th)
    (hrunning : th.status = .running) {nargs : Nat} {nresults : Wanted}
    {errfunc st : Int} (hroom : th.stackBase + nargs + 1 ≤ th.top)
    (hr : L.luaPcall callee.program handler.program mem nargs nresults errfunc =
      .ok st L')
    (herr : st = luaErrRun ∨ st = luaErrErr) :
    (apiFramesLeft callee.program L nargs nresults = 0 ∧
      apiHandlerLeft callee.program handler.program mem L nargs nresults errfunc = 0 ∧
      ApiClosed a (th.top - nargs - 1) (apiThrown callee.program L nargs nresults) →
      L.ApiRestored L' a th (th.top - nargs - 1) errfunc
        (apiThrown callee.program L nargs nresults)) ∧
    (L.ApiRestored L' a th (th.top - nargs - 1) errfunc
        (apiThrown callee.program L nargs nresults) →
      apiFramesLeft callee.program L nargs nresults = 0 ∧
      apiHandlerLeft callee.program handler.program mem L nargs nresults errfunc = 0 ∧
      (errfunc ≤ 0 → ApiClosed a (th.top - nargs - 1)
        (apiThrown callee.program L nargs nresults))) := by
  obtain ⟨h0, hidx⟩ := funcIdx_slot hcurrent hth hroom
  unfold luaPcall at hr
  unfold apiFramesLeft apiHandlerLeft apiThrown
  simp only at hr
  obtain ⟨k, e, L₁, hcall, hleaves⟩ | ⟨s, L₁, hcall⟩ | ⟨L₁, hcall, hcaught⟩ :=
    apiCall_cases callee.contained hcurrent hth hrunning nresults h0 hidx
  · simp only [hcall] at hr ⊢
    obtain ⟨hu, -, th₁, rest, hth₁, habove, -⟩ := hleaves
    rw [Result.after_error] at hu hth₁
    have hcurrent₁ := hu.current.trans hcurrent
    have hidx₁ : th₁.stackBase + (L.gettop - nargs - 1 : Int).toNat =
        th.top - nargs - 1 := by rw [habove.stackBase, hidx]
    obtain ⟨⟨hu₂, th₂, rest₂, k₂, hth₂, habove₂, hlen₂, htop₂⟩, hplain⟩ :=
      apiCatch_spec handler.contained handler.placing hcurrent₁ hth₁
        (habove.status.trans hrunning) h0 hidx₁ hr
    have hdepth : L₁.frameDepth - L.frameDepth = rest.length := by
      rw [frameDepth_eq hcurrent₁ hth₁, frameDepth_eq hcurrent hth, habove.frames,
        List.length_append, Nat.add_sub_cancel_left]
    have hframes : th₂.frames = th.frames ++ (rest ++ rest₂) := by
      rw [habove₂.frames, habove.frames, List.append_assoc]
    have hall := hu.trans (hu₂.mono (Nat.le_refl _)
      (habove.frames ▸ List.subset_append_left th.frames rest))
    rw [hdepth, ← hlen₂]
    refine ⟨fun ⟨hleft, hleft₂, hclosed⟩ => ?_, fun h => ?_⟩
    · rw [List.length_eq_zero_iff] at hleft hleft₂
      refine ⟨hall.current, ⟨th₂, hth₂, ?_, habove₂.stackBase.trans habove.stackBase,
        htop₂ hleft₂⟩, fun i hi hfree => ?_, fun e' L₂ ht u uv huv hopen ha hle => ?_,
        fun herrfunc e' L₂ ht => ?_⟩
      · rw [hframes, hleft, hleft₂, List.append_nil, List.append_nil]
      · obtain ⟨t, ht, hslots⟩ := hall.slots hth
        rw [register, register, ht, hth]
        exact hslots i hi hfree
      · exact absurd ⟨u, uv, huv, hopen, ha, rfl⟩ (hclosed e' L₂ ht _ hle)
      · cases ht
        exact (hplain herrfunc).2
    · obtain ⟨t, ht, hsame, -, -⟩ := h.thread
      obtain rfl := Option.some.inj (hth₂.symm.trans ht)
      rw [hframes, List.append_right_eq_self, List.append_eq_nil_iff] at hsame
      refine ⟨by rw [hsame.1]; rfl, by rw [hsame.2]; rfl, fun herrfunc => ?_⟩
      rintro e' L₂ ht' i hi ⟨u, uv, huv, hopen, ha, rfl⟩
      obtain ⟨uv', huv', hclosed, -⟩ := h.closed e' L₂ ht' u uv huv hopen ha hi
      cases ht'
      rw [(hplain herrfunc).1, huv] at huv'
      obtain rfl := Option.some.inj huv'
      rw [hopen] at hclosed
      contradiction
  · rw [hcall] at hr
    cases hr
    cases s <;> rcases herr with h | h <;> cases h
  · simp only [hcall] at hr ⊢
    cases hr
    obtain ⟨hu, th', rest, k, hth', habove, hlen, htop'⟩ := hcaught
    obtain rfl := List.length_eq_zero_iff.mp hlen
    refine ⟨fun _ => ⟨hu.current, ⟨th', hth', habove.frames.trans (List.append_nil _),
      habove.stackBase, htop' rfl⟩, fun i hi hfree => ?_, fun _ _ h => (nomatch h),
      fun _ _ _ h => (nomatch h)⟩, fun _ => ⟨trivial, trivial,
      fun _ _ _ h => (nomatch h)⟩⟩
    obtain ⟨t, ht, hslots⟩ := hu.slots hth
    rw [register, register, ht, hth]
    exact hslots i hi hfree

/-! ## The pointer to the handler -/

/-- `lua_pcall` reads the handler through its pointer when the stack has moved. -/
def ApiReadsFreed (mem : Storage) (idx errfunc : Int)
    (thrown : Option (String × State)) : Prop :=
  ∃ e L₁ L₂ mh emsg, thrown = some (e, L₁) ∧
    L₁.apiHandler? idx errfunc e = some (L₂, mh, emsg) ∧
    (L₂.placeHandler mem mh emsg).movedFrom L₂ mem = true

/-- A stack of `size` slots must move for the handler at slot `funcIdx` or its argument. -/
def StackFull (mem : Storage) (size funcIdx : Nat) : Prop :=
  size = funcIdx ∧ mem.capacity < funcIdx + 65 ∨
    size = funcIdx + 1 ∧ mem.capacity < funcIdx + 66

instance (mem : Storage) (size funcIdx : Nat) : Decidable (StackFull mem size funcIdx) :=
  inferInstanceAs (Decidable (_ ∧ _ ∨ _ ∧ _))

/-- The exception meets a handler, and a stack that is full. -/
def ApiFull (mem : Storage) (idx errfunc : Int) (funcIdx : Nat)
    (thrown : Option (String × State)) : Prop :=
  ∃ e L₁, thrown = some (e, L₁) ∧ (L₁.apiHandler? idx errfunc e).isSome = true ∧
    StackFull mem L₁.stackSize funcIdx

theorem stackSize_eq (hcurrent : L.current = some a) (hth : L.thread? a = some th) :
    L.stackSize = th.stack.length := by
  rw [stackSize, currentThread?_eq hcurrent hth]
  rfl

theorem stackSize_push (hcurrent : L.current = some a) (hth : L.thread? a = some th)
    (v : TValue) : (L.push v).stackSize = grown th.stack.length (th.top + 1) := by
  rw [State.push, withCurrent_eq hcurrent,
    stackSize_eq (current_update hcurrent _) (thread?_update hth _), th.length_push]

theorem placeHandler_movedFrom (hcurrent : L.current = some a)
    (hth : L.thread? a = some th) (mh : Addr) (emsg : TValue) :
    (L.placeHandler mem mh emsg).movedFrom L mem = true ↔
      th.stack.length < grown (grown th.stack.length (th.top + 1)) (th.top + 2) ∧
        mem.capacity < grown (grown th.stack.length (th.top + 1)) (th.top + 2) := by
  have hpush (v : TValue) : (L.push v).current = some a ∧
      (L.push v).thread? a = some (th.push v) := by
    rw [State.push, withCurrent_eq hcurrent]
    exact ⟨current_update hcurrent _, thread?_update hth _⟩
  obtain ⟨hcurrent₁, hth₁⟩ := hpush (L.readHandler mem mh)
  rw [movedFrom, placeHandler, stackSize_eq hcurrent hth, stackSize_push hcurrent₁ hth₁,
    Thread.length_push, Thread.top_push, Bool.and_eq_true, decide_eq_true_eq,
    decide_eq_true_eq]

theorem apiReadsFreed_iff (mem : Storage) {idx : Int} (errfunc : Int)
    (thrown : Option (String × State)) (h0 : 0 ≤ idx - 1)
    (hthrown : ∀ e L₁, thrown = some (e, L₁) → L₁.current = some a ∧
      ∃ th₁, L₁.thread? a = some th₁ ∧ th₁.stackBase + (idx - 1).toNat = funcIdx) :
    ApiReadsFreed mem idx errfunc thrown ↔ ApiFull mem idx errfunc funcIdx thrown := by
  have hfound {e : String} {L₁ L₂ : State} {mh : Addr} {emsg : TValue}
      (ht : thrown = some (e, L₁)) (hh : L₁.apiHandler? idx errfunc e = some (L₂, mh, emsg)) :
      (L₂.placeHandler mem mh emsg).movedFrom L₂ mem = true ↔
        StackFull mem L₁.stackSize funcIdx := by
    obtain ⟨hcurrent₁, th₁, hth₁, hidx⟩ := hthrown e L₁ ht
    unfold apiHandler? at hh
    cases htake : L₁.takeErrorObject e with
    | error e' L' =>
        rw [htake] at hh
        cases hh
    | ok v L' =>
        obtain ⟨hcurrent', th', hth', hstack, hbase⟩ :=
          takeErrorObject_stack hcurrent₁ hth₁ htake
        have hsettop := settop_eq hcurrent' h0
        have htop := thread?_update hth' fun th => th.setAbsTop (th.stackBase + (idx - 1).toNat)
        rw [hbase, hidx, ← hsettop] at htop
        have hcurrent₂ : (L'.settop (idx - 1)).current = some a := by
          rw [hsettop]
          exact current_update hcurrent' _
        obtain rfl : L'.settop (idx - 1) = L₂ := by
          rw [htake] at hh
          simp only at hh
          split at hh
          · split at hh <;> cases hh
            rfl
          · cases hh
        rw [placeHandler_movedFrom hcurrent₂ htop, Thread.length_setAbsTop, hstack,
          Thread.top_setAbsTop, stackSize_eq hcurrent₁ hth₁]
        unfold grown StackFull
        split_ifs <;> omega
  constructor
  · rintro ⟨e, L₁, L₂, mh, emsg, ht, hh, hmoved⟩
    exact ⟨e, L₁, ht, by rw [hh]; rfl, (hfound ht hh).mp hmoved⟩
  · rintro ⟨e, L₁, ht, hsome, hfull⟩
    obtain ⟨⟨L₂, mh, emsg⟩, hh⟩ := Option.isSome_iff_exists.mp hsome
    exact ⟨e, L₁, L₂, mh, emsg, ht, hh, (hfound ht hh).mpr hfull⟩

/--
A failing `lua_pcall` is as clean as `pcall` if no frame and no open upvalue is
left when the exception is caught, the stack need not move for the handler, and
the handler leaves no frame; and only if.
-/
theorem luaPcall_restores_iff (callee handler : Callee) (mem : Storage)
    (hcurrent : L.current = some a) (hth : L.thread? a = some th)
    (hrunning : th.status = .running) {nargs : Nat} {nresults : Wanted}
    {errfunc st : Int} (hroom : th.stackBase + nargs + 1 ≤ th.top)
    (hr : L.luaPcall callee.program handler.program mem nargs nresults errfunc =
      .ok st L')
    (herr : st = luaErrRun ∨ st = luaErrErr) :
    (apiFramesLeft callee.program L nargs nresults = 0 ∧
      apiHandlerLeft callee.program handler.program mem L nargs nresults errfunc = 0 ∧
      ¬ ApiFull mem (L.gettop - nargs) errfunc (th.top - nargs - 1)
        (apiThrown callee.program L nargs nresults) ∧
      ApiClosed a (th.top - nargs - 1) (apiThrown callee.program L nargs nresults) →
      ¬ ApiReadsFreed mem (L.gettop - nargs) errfunc
        (apiThrown callee.program L nargs nresults) ∧
      L.ApiRestored L' a th (th.top - nargs - 1) errfunc
        (apiThrown callee.program L nargs nresults)) ∧
    (¬ ApiReadsFreed mem (L.gettop - nargs) errfunc
        (apiThrown callee.program L nargs nresults) ∧
      L.ApiRestored L' a th (th.top - nargs - 1) errfunc
        (apiThrown callee.program L nargs nresults) →
      apiFramesLeft callee.program L nargs nresults = 0 ∧
      apiHandlerLeft callee.program handler.program mem L nargs nresults errfunc = 0 ∧
      ¬ ApiFull mem (L.gettop - nargs) errfunc (th.top - nargs - 1)
        (apiThrown callee.program L nargs nresults) ∧
      (errfunc ≤ 0 → ApiClosed a (th.top - nargs - 1)
        (apiThrown callee.program L nargs nresults))) := by
  have hfreed := apiReadsFreed_iff mem errfunc (apiThrown callee.program L nargs nresults)
    (funcIdx_slot hcurrent hth hroom).1 fun e L₁ hthrown =>
      apiThrown_current callee.contained hcurrent hth hrunning nresults hroom hthrown
  obtain ⟨hrestores, hneeds⟩ := luaPcall_restores callee handler mem hcurrent hth hrunning
    hroom hr herr
  rw [hfreed]
  constructor
  · rintro ⟨hframes, hhandler, hroom, hclosed⟩
    exact ⟨hroom, hrestores ⟨hframes, hhandler, hclosed⟩⟩
  · rintro ⟨hroom, hrestored⟩
    obtain ⟨hframes, hhandler, hclosed⟩ := hneeds hrestored
    exact ⟨hframes, hhandler, hroom, hclosed⟩

/-- The main thread with a function on top of its stack, and a message handler below. -/
def callingThread : Thread :=
  { stack := .function 2 :: .function 2 :: List.replicate 8 .nil
    top := 2
    status := .running
    errObj := .boolean true
    errObjSet := true }

def calling (proto : Option Addr) : State :=
  { main := some 1
    current := some 1
    heap := [(1, .thread callingThread), (2, .closure { proto }), (3, .proto {})] }

def raising : Callee := .mk (.raise "error") (.raise "error")

def mainStorage : Storage := ⟨256, .nil, 0⟩

def afterLuaPcall (proto : Option Addr) (errfunc : Int) : Result Int :=
  (calling proto).luaPcall raising.program raising.program mainStorage 0 none errfunc

def isUpval : Object → Bool
  | .upval _ => true
  | _ => false

theorem not_captured (h : (L.heap.any fun cell => isUpval cell.2) = false)
    (b : Addr) (i : Nat) : ¬ L.Captured b i := by
  rintro ⟨u, uv, huv, -⟩
  have hmem := Heap.mem_of_object? (upval?_eq_some.mp huv)
  have hcell := List.any_eq_false.mp h _ hmem
  exact hcell rfl

/-- The handler raises in its turn. -/
theorem luaPcall_restores_native :
    ¬ ApiReadsFreed mainStorage 2 1 (apiThrown raising.program (calling none) 0 none) ∧
    (calling none).ApiRestored (afterLuaPcall none 1).after 1 callingThread 1 1
      (apiThrown raising.program (calling none) 0 none) :=
  (luaPcall_restores_iff (L := calling none) raising raising mainStorage rfl rfl rfl
    (by decide) (show afterLuaPcall none 1 = .ok luaErrErr (afterLuaPcall none 1).after from rfl)
    (Or.inr rfl)).1 ⟨rfl, rfl, fun ⟨_, _, h, _, hfull⟩ => by
      cases h
      exact absurd hfull (by decide), fun _ _ h i _ => by
      cases h
      exact not_captured rfl 1 i⟩

/-- A Lua function that raises under `lua_pcall` leaves its frame. -/
theorem luaPcall_keeps_frame :
    afterLuaPcall (some 3) 0 = .ok luaErrRun (afterLuaPcall (some 3) 0).after ∧
    ¬ (calling (some 3)).ApiRestored (afterLuaPcall (some 3) 0).after 1 callingThread 1 0
      (apiThrown raising.program (calling (some 3)) 0 none) := by
  refine ⟨rfl, fun h => ?_⟩
  obtain ⟨th', hth', hframes, -⟩ := h.thread
  have hlen : (((afterLuaPcall (some 3) 0).after.thread? 1).map
      fun th => th.frames.length) = some 1 := rfl
  rw [hth', Option.map_some, hframes] at hlen
  contradiction

end State

end Luatier
