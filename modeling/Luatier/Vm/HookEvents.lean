import Luatier.Vm.FramesSpec
import Luatier.Vm.Hooks

/-!
# What the interrupted code sees of a hook

After an event the thread goes on from the state that it was stopped in.  A
hook that raises leaves its own frames, which the protected call that catches
the error drops.
-/

namespace Luatier

namespace Thread

variable {th : Thread}

theorem setHooked_concat (init rest : List CallFrame) (fr : CallFrame) (hooked : Bool) :
    setHooked (init ++ fr :: rest) (some init.length) hooked =
      init ++ { fr with hooked } :: rest := by
  simp only [setHooked]
  induction init with
  | nil => rfl
  | cons x init ih =>
      rw [List.length_cons, List.cons_append, List.modify_succ_cons, ih]
      rfl

theorem setHooked_back (hmark : ∀ fr ∈ th.frames, fr.hooked = false)
    (rest : List CallFrame) :
    setHooked (setHooked th.frames th.interruptedIdx true ++ rest) th.interruptedIdx
      false = th.frames ++ rest := by
  obtain h | ⟨init, fr, h⟩ := List.eq_nil_or_concat' th.frames
  · rw [interruptedIdx, h]
    rfl
  · have hidx : th.interruptedIdx = some init.length := by
      rw [interruptedIdx, h]
      simp
    have hoff : fr.hooked = false := hmark fr (h ▸ List.mem_concat_self)
    rw [hidx, h, setHooked_concat, List.append_assoc, List.append_assoc,
      List.singleton_append, List.singleton_append, setHooked_concat, ← hoff]

theorem slot_enterHook {hookBase i : Nat} (func event : Addr) (line : Int)
    (h : i < hookBase) : (th.enterHook hookBase func event line).slot i = th.slot i :=
  ((th.ensureStack (hookBase + 3)).slot_overwrite (if_neg (by omega))).trans
    (th.slot_ensureStack _ i)

theorem stackBase_enterHook (th : Thread) (hookBase : Nat) (func event : Addr)
    (line : Int) :
    (th.enterHook hookBase func event line).stackBase = th.stackBase :=
  th.stackBase_ensureStack _

theorem nny_enterHook (th : Thread) (hookBase : Nat) (func event : Addr) (line : Int) :
    (th.enterHook hookBase func event line).nny = th.nny :=
  th.nny_ensureStack _

theorem status_enterHook (th : Thread) (hookBase : Nat) (func event : Addr)
    (line : Int) : (th.enterHook hookBase func event line).status = th.status :=
  th.status_ensureStack _

theorem hookFunc_enterHook (th : Thread) (hookBase : Nat) (func event : Addr)
    (line : Int) : (th.enterHook hookBase func event line).hookFunc = th.hookFunc := by
  show (th.ensureStack _).hookFunc = th.hookFunc
  unfold ensureStack
  split <;> rfl

end Thread

namespace State

/-- Code that writes no variable of the thread `a` that was there, and no hook. -/
structure Discreet (a : Addr) (L L' : State) : Prop where
  shared : ∀ i, L.Captured a i → L'.register a i = L.register a i
  hook : ∀ th th', L.thread? a = some th → L'.thread? a = some th' →
    th'.hookFunc = th.hookFunc ∧ th'.allowhook = th.allowhook

/-- The hook of the thread `a` is discreet when it is called for this event. -/
def HookDiscreet (program : Program) (L : State) (a : Addr) (event : String)
    (line : Int) : Prop :=
  ∀ th func ev L₁, L.thread? a = some th → th.hookFunc = some func →
    L.intern event = .ok ev L₁ →
    Discreet a (L₁.updateThread a (·.enterHook (L₁.liveRegsTop th) func ev line))
      (L₁.runHook program a th func ev line).after

/--
The thread goes on from the state it was stopped in, with registers below the
place of the hook; `rest` are the frames of a hook that raised.
-/
structure Unseen (L : State) (a : Addr) (th : Thread) (returned : Prop) (L' : State) :
    Prop where
  current : L'.current = L.current
  thread : ∃ th' rest, L'.thread? a = some th' ∧ th'.frames = th.frames ++ rest ∧
    (∀ fr ∈ rest, L.liveRegsTop th ≤ fr.base) ∧ (returned → rest = []) ∧
    th'.top = th.top ∧ th'.stackBase = th.stackBase ∧ th'.nny = th.nny ∧
    th'.hookFunc = th.hookFunc ∧ th'.allowhook = th.allowhook ∧
    ∀ i < L.liveRegsTop th, th'.slot i = th.slot i

variable {L L₁ : State} {a : Addr} {th : Thread}

theorem Unseen.same (hth : L.thread? a = some th) (hsame : SameCalls L L₁)
    (returned : Prop) : L.Unseen a th returned L₁ :=
  ⟨hsame.current, th, [], by rw [hsame.thread?, hth], (List.append_nil _).symm,
    fun _ hfr => absurd hfr List.not_mem_nil, fun _ => rfl, rfl, rfl, rfl, rfl, rfl,
    fun _ _ => rfl⟩

theorem liveRegsTop_same (hsame : SameCalls L L₁) (th : Thread) :
    L₁.liveRegsTop th = L.liveRegsTop th := by
  simp only [liveRegsTop, hsame.proto?, hsame.closure?]

theorem Unseen.afterSame {returned : Prop} {L' : State} (hsame : SameCalls L L₁)
    (h : L₁.Unseen a th returned L') : L.Unseen a th returned L' := by
  obtain ⟨hcurrent, hthread⟩ := h
  rw [liveRegsTop_same hsame] at hthread
  exact ⟨hcurrent.trans hsame.current, hthread⟩

theorem runHook_unseen (callee : Callee) (hcurrent : L.current = some a)
    (hth : L.thread? a = some th) (hrunning : th.status = .running)
    (hmark : ∀ fr ∈ th.frames, fr.hooked = false) (func ev : Addr) (line : Int)
    (hdiscreet : Discreet a
      (L.updateThread a (·.enterHook (L.liveRegsTop th) func ev line))
      (L.runHook callee.program a th func ev line).after) :
    L.Unseen a th (callee.apiFree = true ∧
        (L.runHook callee.program a th func ev line).raised = false)
      ((L.runHook callee.program a th func ev line).after.updateThread a
        (·.leaveHook th.interruptedIdx th.top)) := by
  generalize hbase : L.liveRegsTop th = hookBase at hdiscreet
  have hcurrent₁ := current_update hcurrent (·.enterHook hookBase func ev line)
  have hth₁ := thread?_update hth (·.enterHook hookBase func ev line)
  have hrunning₁ := (th.status_enterHook hookBase func ev line).trans hrunning
  have hcall := callClosure_leaves callee.contained hcurrent₁ hth₁ hrunning₁ func 2
    (some 0)
  rw [show (th.enterHook hookBase func ev line).top - 2 - 1 = hookBase from
    Nat.add_sub_cancel hookBase 3] at hcall
  have hreturned : ∀ {th₂ : Thread}, callee.apiFree = true →
      (L.runHook callee.program a th func ev line).raised = false →
      (L.runHook callee.program a th func ev line).after.thread? a = some th₂ →
      th₂.frames = (th.enterHook hookBase func ev line).frames := by
    intro th₂ hapi hraised hth₂
    unfold runHook at hraised hth₂
    rw [hbase] at hraised hth₂
    cases hr : (L.updateThread a (·.enterHook hookBase func ev line)).callClosure
        callee.program func 2 (some 0) with
    | error e L₂ =>
        rw [hr] at hraised
        contradiction
    | ok st L₂ =>
        rw [hr] at hth₂ hcall
        obtain rfl := hcall.finished st L₂ rfl
        exact callClosure_frames callee.contained (callee.neat hapi) hcurrent₁ hth₁
          hrunning₁ hr hth₂
  have hrun : L.runHook callee.program a th func ev line =
      (L.updateThread a (·.enterHook hookBase func ev line)).callClosure
        callee.program func 2 (some 0) := by
    rw [runHook, hbase]
  rw [← hrun] at hcall
  obtain ⟨hu, -, th₂, rest, hth₂, habove, -⟩ := hcall
  obtain ⟨hfunc, hallow⟩ := hdiscreet.hook _ th₂ hth₁ hth₂
  refine ⟨hu.current, _, rest, thread?_update hth₂ _, ?_, hbase ▸ habove.bases,
    fun ⟨hapi, hraised⟩ => ?_, rfl, ?_, ?_, ?_, ?_, fun i hi => ?_⟩
  · refine Eq.trans ?_ (Thread.setHooked_back hmark rest)
    rw [Thread.leaveHook, habove.frames]
    rfl
  · have hframes := hreturned hapi hraised hth₂
    rwa [habove.frames, List.append_right_eq_self] at hframes
  · exact habove.stackBase.trans (th.stackBase_enterHook _ _ _ _)
  · exact habove.nny.trans (th.nny_enterHook _ _ _ _)
  · exact hfunc.trans (th.hookFunc_enterHook _ _ _ _)
  · show th₂.allowhook + 1 = th.allowhook
    rw [hallow]
    exact Int.sub_add_cancel th.allowhook 1
  · rw [hbase] at hi
    show th₂.slot i = th.slot i
    rw [← th.slot_enterHook func ev line hi]
    by_cases hcap : (L.updateThread a
        (·.enterHook hookBase func ev line)).Captured a i
    · have hshared := hdiscreet.shared i hcap
      rwa [register, register, hth₂, hth₁] at hshared
    · obtain ⟨t, ht, hslots⟩ := hu.slots hth₁
      obtain rfl := Option.some.inj (hth₂.symm.trans ht)
      exact hslots i hi hcap

theorem debugCallHook_unseen (callee : Callee) (hcurrent : L.current = some a)
    (hth : L.thread? a = some th) (hrunning : th.status = .running)
    (hmark : 0 < th.allowhook → ∀ fr ∈ th.frames, fr.hooked = false)
    {event : String} {line : Int}
    (hdiscreet : L.HookDiscreet callee.program a event line) :
    L.Unseen a th (callee.apiFree = true ∧
        (L.debugCallHook callee.program a event line).raised = false)
      (L.debugCallHook callee.program a event line).after := by
  unfold debugCallHook
  rw [hth]
  simp only
  cases hfunc : th.hookFunc with
  | none => exact .same hth (.refl L) _
  | some func =>
      simp only
      split
      · exact .same hth (.refl L) _
      · rename_i hallow
        have hsame := L.intern_sameCalls event
        cases hi : L.intern event with
        | error e L₁ =>
            rw [hi] at hsame
            exact .same hth hsame _
        | ok ev L₁ =>
            rw [hi, Result.after_ok] at hsame
            have hunseen := runHook_unseen callee (hsame.current.trans hcurrent)
              (hsame.thread? ▸ hth) hrunning (hmark (by omega)) func ev line
              (hdiscreet th func ev L₁ hth hfunc hi)
            refine Unseen.afterSame hsame ?_
            simp only [Result.bind]
            cases hr : L₁.runHook callee.program a th func ev line with
            | error e L₂ =>
                rw [hr] at hunseen
                exact hunseen
            | ok st L₂ =>
                rw [hr] at hunseen
                exact hunseen

/-! ## The two events of an instruction -/

def InWindows (L : State) (th : Thread) (i : Nat) : Prop :=
  i < th.top ∨ ∃ fr ∈ th.frames, i < L.windowEnd fr

/-- The thread goes on from the state it was stopped in, with the same windows. -/
structure GoesOn (a : Addr) (L : State) (th : Thread) (L' : State) (th' : Thread) :
    Prop where
  current : L'.current = L.current
  thread : L'.thread? a = some th'
  frames : th'.frames = th.frames
  top : th'.top = th.top
  stackBase : th'.stackBase = th.stackBase
  nny : th'.nny = th.nny
  status : th'.status = th.status
  hook : th'.hookFunc = th.hookFunc ∧ th'.allowhook = th.allowhook
  windows : ∀ fr ∈ th.frames, L'.windowEnd fr = L.windowEnd fr
  slots : ∀ i, L.InWindows th i → th'.slot i = th.slot i

theorem InWindows.lt_liveRegsTop {i : Nat} (h : L.InWindows th i) : i < L.liveRegsTop th := by
  obtain ⟨htop, hwindows⟩ := live_le_liveRegsTop L th
  obtain h | ⟨fr, hfr, h⟩ := h
  · exact h.trans_le htop
  · exact h.trans_le (hwindows fr hfr)

theorem GoesOn.of_sameCalls (hsame : SameCalls L L₁) (hth : L.thread? a = some th) :
    GoesOn a L th L₁ th where
  current := hsame.current
  thread := by rw [hsame.thread?, hth]
  frames := rfl
  top := rfl
  stackBase := rfl
  nny := rfl
  status := rfl
  hook := ⟨rfl, rfl⟩
  windows _ _ := by simp only [windowEnd, hsame.proto?, hsame.closure?]
  slots _ _ := rfl

theorem goesOn_same (hth : L.thread? a = some th) (hok : (.ok () L : Result Unit) = .ok () L₁) :
    ∃ th', GoesOn a L th L₁ th' := by
  cases hok
  exact ⟨th, .of_sameCalls (.refl L) hth⟩

theorem GoesOn.trans {L₂ : State} {th₁ th₂ : Thread} (h₁ : GoesOn a L th L₁ th₁)
    (h₂ : GoesOn a L₁ th₁ L₂ th₂) : GoesOn a L th L₂ th₂ where
  current := h₂.current.trans h₁.current
  thread := h₂.thread
  frames := h₂.frames.trans h₁.frames
  top := h₂.top.trans h₁.top
  stackBase := h₂.stackBase.trans h₁.stackBase
  nny := h₂.nny.trans h₁.nny
  status := h₂.status.trans h₁.status
  hook := ⟨h₂.hook.1.trans h₁.hook.1, h₂.hook.2.trans h₁.hook.2⟩
  windows fr hfr :=
    (h₂.windows fr (h₁.frames ▸ hfr)).trans (h₁.windows fr hfr)
  slots i hi := by
    have hi₁ : L₁.InWindows th₁ i := by
      obtain h | ⟨fr, hfr, h⟩ := hi
      · exact Or.inl (h₁.top ▸ h)
      · exact Or.inr ⟨fr, h₁.frames ▸ hfr, by rwa [h₁.windows fr hfr]⟩
    exact (h₂.slots i hi₁).trans (h₁.slots i hi)

theorem windowEnd_setHooked {frames : List CallFrame} {fr : CallFrame} (hfr : fr ∈ frames)
    (idx : Option Nat) (hooked : Bool) :
    ∃ fr' ∈ Thread.setHooked frames idx hooked, ∀ L : State,
      L.windowEnd fr' = L.windowEnd fr := by
  cases idx with
  | none => exact ⟨fr, hfr, fun _ => rfl⟩
  | some j =>
      obtain ⟨i, hi, rfl⟩ := List.mem_iff_getElem.mp hfr
      have hi' : i < (Thread.setHooked frames (some j) hooked).length := by
        simpa [Thread.setHooked] using hi
      refine ⟨(Thread.setHooked frames (some j) hooked)[i], List.getElem_mem hi', fun L => ?_⟩
      simp only [Thread.setHooked, List.getElem_modify]
      split <;> rfl

theorem runHook_goesOn (callee : Callee) (hapi : callee.apiFree = true)
    (hcurrent : L.current = some a) (hth : L.thread? a = some th)
    (hrunning : th.status = .running)
    (hmark : ∀ fr ∈ th.frames, fr.hooked = false) {func ev : Addr} {line : Int}
    (hdiscreet : Discreet a
      (L.updateThread a (·.enterHook (L.liveRegsTop th) func ev line))
      (L.runHook callee.program a th func ev line).after) {st : Status}
    (hok : L.runHook callee.program a th func ev line = .ok st L₁) :
    ∃ th', GoesOn a L th (L₁.updateThread a (·.leaveHook th.interruptedIdx th.top)) th' := by
  have hunseen := runHook_unseen callee hcurrent hth hrunning hmark func ev line hdiscreet
  rw [hok] at hunseen
  obtain ⟨hcur, th', rest, hth', hframes, -, hrest, htop, hbase, hnny, hfunc, hallow,
    hslots⟩ := hunseen
  have hcall := callClosure_leaves callee.contained
    (current_update hcurrent (·.enterHook (L.liveRegsTop th) func ev line))
    (thread?_update hth _) ((th.status_enterHook _ func ev line).trans hrunning) func 2 (some 0)
  have hrun : (L.updateThread a (·.enterHook (L.liveRegsTop th) func ev line)).callClosure
      callee.program func 2 (some 0) = .ok st L₁ := hok
  rw [hrun] at hcall
  obtain ⟨hu, -, th₁, rest₁, hth₁, habove, -⟩ := hcall
  have hth₁' := thread?_update hth₁ (·.leaveHook th.interruptedIdx th.top)
  obtain rfl := Option.some.inj (hth₁'.symm.trans hth')
  refine ⟨_, hcur, hth', ?_, htop, hbase, hnny,
    habove.status.trans (th.status_enterHook _ func ev line), ⟨hfunc, hallow⟩,
    fun fr hfr => ?_, fun i hi => hslots i hi.lt_liveRegsTop⟩
  · rw [hframes, hrest ⟨hapi, rfl⟩, List.append_nil]
  · have hupdate (M : State) (f : Thread → Thread) :
        (M.updateThread a f).windowEnd fr = M.windowEnd fr :=
      (Untouched.updateThread M f fun _ _ hi => absurd hi (Nat.not_lt_zero _)).windows fr hfr
    obtain ⟨fr', hfr', hsame⟩ := windowEnd_setHooked hfr th.interruptedIdx true
    rw [hupdate, ← hsame, ← hupdate L (·.enterHook (L.liveRegsTop th) func ev line), ← hsame]
    exact hu.windows fr' hfr'

theorem debugCallHook_goesOn (callee : Callee) (hapi : callee.apiFree = true)
    (hcurrent : L.current = some a) (hth : L.thread? a = some th)
    (hrunning : th.status = .running)
    (hmark : 0 < th.allowhook → ∀ fr ∈ th.frames, fr.hooked = false)
    {event : String} {line : Int}
    (hdiscreet : L.HookDiscreet callee.program a event line)
    (hok : L.debugCallHook callee.program a event line = .ok () L₁) :
    ∃ th', GoesOn a L th L₁ th' := by
  unfold debugCallHook at hok
  rw [hth] at hok
  simp only at hok
  cases hfunc : th.hookFunc with
  | none =>
      rw [hfunc] at hok
      exact goesOn_same hth hok
  | some func =>
      simp only [hfunc] at hok
      split at hok
      · exact goesOn_same hth hok
      · rename_i hallow
        have hsame := L.intern_sameCalls event
        cases hi : L.intern event with
        | error e L₂ =>
            rw [hi] at hok
            contradiction
        | ok ev L₂ =>
            rw [hi, Result.after_ok] at hsame
            simp only [hi, Result.bind] at hok
            cases hr : L₂.runHook callee.program a th func ev line with
            | error e L₃ =>
                rw [hr] at hok
                contradiction
            | ok st L₃ =>
                rw [hr] at hok
                cases hok
                obtain ⟨th', h⟩ := runHook_goesOn callee hapi (hsame.current.trans hcurrent)
                  (by rw [hsame.thread?, hth]) hrunning (hmark (by omega))
                  (hdiscreet th func ev L₂ hth hfunc hi) hr
                exact ⟨th', (GoesOn.of_sameCalls hsame hth).trans h⟩

section Trace

variable {L' : State} {callee : Callee} {h : Hook}

theorem debugCountHook_goesOn (hapi : callee.apiFree = true) (hcurrent : L.current = some a)
    (hth : L.thread? a = some th) (hrunning : th.status = .running)
    (hmark : 0 < th.allowhook → ∀ fr ∈ th.frames, fr.hooked = false)
    (hdiscreet : L.HookDiscreet callee.program a "count" (-1))
    (hok : (L.debugCountHook callee.program a h).2 = .ok () L₁) :
    ∃ th', GoesOn a L th L₁ th' := by
  unfold debugCountHook at hok
  split at hok
  · split at hok
    · exact debugCallHook_goesOn callee hapi hcurrent hth hrunning hmark hdiscreet hok
    · exact goesOn_same hth hok
  · exact goesOn_same hth hok

theorem debugLineHook_goesOn (hapi : callee.apiFree = true) (hcurrent : L.current = some a)
    (hth : L.thread? a = some th) (hrunning : th.status = .running)
    (hmark : 0 < th.allowhook → ∀ fr ∈ th.frames, fr.hooked = false) {lineinfo : List Int}
    {npc : Nat} (hdiscreet : L.HookDiscreet callee.program a "line" (lineinfo.getD npc (-1)))
    (hok : (L.debugLineHook callee.program a h lineinfo npc).2 = .ok () L₁) :
    ∃ th', GoesOn a L th L₁ th' := by
  unfold debugLineHook at hok
  split at hok
  · cases hline : lineinfo[npc]? with
    | none =>
        rw [hline] at hok
        exact goesOn_same hth hok
    | some newline =>
        simp only [hline] at hok
        rw [List.getD_eq_getElem?_getD, hline] at hdiscreet
        generalize (if 0 < h.oldpc then lineinfo.getD (h.oldpc - 1) (-1) else -1) =
          oldline at hok
        split at hok
        · exact debugCallHook_goesOn callee hapi hcurrent hth hrunning hmark hdiscreet hok
        · exact goesOn_same hth hok
  · exact goesOn_same hth hok

/-- An instruction is traced, and the thread goes on as if it had not been. -/
theorem debugTraceExec_goesOn (hapi : callee.apiFree = true) (hcurrent : L.current = some a)
    (hth : L.thread? a = some th) (hrunning : th.status = .running)
    (hmark : 0 < th.allowhook → ∀ fr ∈ th.frames, fr.hooked = false) {lineinfo : List Int}
    {npc : Nat} (hcount : L.HookDiscreet callee.program a "count" (-1))
    (hline : ∀ L₁, (L.debugCountHook callee.program a h).2 = .ok () L₁ →
      L₁.HookDiscreet callee.program a "line" (lineinfo.getD npc (-1)))
    (hok : (L.debugTraceExec callee.program a h lineinfo npc).2 = .ok () L') :
    ∃ th', GoesOn a L th L' th' := by
  unfold debugTraceExec at hok
  split at hok
  · cases hfirst : L.debugCountHook callee.program a h with
    | mk h' r =>
        have hr : (L.debugCountHook callee.program a h).2 = r := by rw [hfirst]
        rw [hfirst] at hok
        cases r with
        | error e L₁ => contradiction
        | ok _ L₁ =>
            obtain ⟨th₁, h₁⟩ := debugCountHook_goesOn hapi hcurrent hth hrunning hmark
              hcount hr
            simp only at hok
            split at hok
            · have hmark₁ : 0 < th₁.allowhook → ∀ fr ∈ th₁.frames, fr.hooked = false := by
                rw [h₁.hook.2, h₁.frames]
                exact hmark
              obtain ⟨th₂, h₂⟩ := debugLineHook_goesOn hapi (h₁.current.trans hcurrent)
                h₁.thread (h₁.status.trans hrunning) hmark₁ (hline L₁ hr) hok
              exact ⟨th₂, h₁.trans h₂⟩
            · cases hok
              exact ⟨th₁, h₁⟩
  · exact goesOn_same hth hok

/-- Back in its caller, the code goes on within the line without an event. -/
theorem debugLineHook_onReturn (program : Program) {fr : CallFrame} {lineinfo : List Int}
    (hth : L.thread? a = some th) (hlast : th.frames.getLast? = some fr)
    (hproto : fr.proto.isSome = true) (hpos : 0 < fr.savedPc)
    (hsame : lineinfo[fr.savedPc]? = lineinfo[fr.savedPc - 1]?) :
    (L.debugLineHook program a (L.debugOnReturn a h) lineinfo fr.savedPc).2 = .ok () L := by
  have hold : (L.debugOnReturn a h).oldpc = fr.savedPc := by
    simp [debugOnReturn, hth, hlast, Option.filter, hproto]
  unfold debugLineHook
  split
  · cases hline : lineinfo[fr.savedPc]? with
    | none => rfl
    | some newline =>
        have holdline : lineinfo.getD (fr.savedPc - 1) (-1) = newline := by
          rw [List.getD_eq_getElem?_getD, ← hsame, hline]
          rfl
        simp only [hold, if_pos hpos, holdline]
        rw [if_neg (by omega)]
  · rfl

end Trace

/--
An event stops the thread and lets it go on as it was, whether the hook returns
or raises; only a hook that raises leaves frames above.
-/
theorem hookEvent_unseen (callee : Callee) (event : HookEvent) (h : Hook)
    (hcurrent : L.current = some a) (hth : L.thread? a = some th)
    (hrunning : th.status = .running)
    (hmark : 0 < th.allowhook → ∀ fr ∈ th.frames, fr.hooked = false)
    (hdiscreet : L.HookDiscreet callee.program a event.name event.currentline) :
    L.Unseen a th (callee.apiFree = true ∧
        (event.fire callee.program L a h).2.raised = false)
      (event.fire callee.program L a h).2.after ∧
    th.top ≤ L.liveRegsTop th ∧
    ∀ fr ∈ th.frames, L.windowEnd fr ≤ L.liveRegsTop th := by
  refine ⟨?_, live_le_liveRegsTop L th⟩
  have hcall := debugCallHook_unseen callee hcurrent hth hrunning hmark hdiscreet
  have hnone : ∀ returned, L.Unseen a th returned L := .same hth (.refl L)
  cases event with
  | call =>
      unfold HookEvent.fire debugOnCall debugFrameHook
      simp only
      split
      · exact hcall
      · exact hnone _
  | tailCall =>
      unfold HookEvent.fire debugOnTailcall debugFrameHook
      simp only
      split
      · exact hcall
      · exact hnone _
  | ret =>
      unfold HookEvent.fire debugReturnHook debugFrameHook
      simp only
      split
      · exact hcall
      · exact hnone _
  | count =>
      unfold HookEvent.fire debugCountHook
      simp only
      split
      · split
        · exact hcall
        · exact hnone _
      · exact hnone _
  | line lineinfo npc =>
      unfold HookEvent.fire debugLineHook
      simp only
      split
      · cases hline : lineinfo[npc]? with
        | none => exact hnone _
        | some newline =>
            simp only
            rw [HookEvent.name, HookEvent.currentline, List.getD_eq_getElem?_getD,
              hline] at hcall
            generalize (if 0 < h.oldpc then lineinfo.getD (h.oldpc - 1) (-1) else -1) =
              oldline
            split
            · exact hcall
            · exact hnone _
      · exact hnone _

def hookedThread : Thread :=
  { stack := List.replicate 8 .nil
    frames := [{ cl := some 2, proto := some 3 }]
    hookFunc := some 2
    top := 1
    status := .running }

def hooked (proto : Option Addr) : State :=
  { main := some 1
    current := some 1
    heap := [(1, .thread hookedThread), (2, .closure { proto }), (3, .proto {})] }

def callHook : Hook := { mask := Hook.maskCall }

def returningHook : Callee := .mk (.ret 0) (.raise "error")

def raisingHook : Callee := .mk (.raise "error") (.raise "error")

def afterCall (callee : Callee) (proto : Option Addr) : Result Unit :=
  (HookEvent.call.fire callee.program (hooked proto) 1 callHook).2

theorem hooked_discreet (callee : Callee) (proto : Option Addr)
    (hhook : ∀ ev L₁, (hooked proto).intern "call" = .ok ev L₁ →
      ((L₁.runHook callee.program 1 hookedThread 2 ev (-1)).after.thread? 1).map
        (fun th => (th.hookFunc, th.allowhook)) = some (some 2, 0)) :
    (hooked proto).HookDiscreet callee.program 1 "call" (-1) := by
  intro th func ev L₁ hth hfunc hi
  obtain rfl : hookedThread = th := Option.some.inj hth
  obtain rfl : 2 = func := Option.some.inj hfunc
  have hsame := (hooked proto).intern_sameCalls "call"
  rw [hi, Result.after_ok] at hsame
  refine ⟨fun i ⟨u, uv, huv, _⟩ => ?_, fun th th' hth hth' => ?_⟩
  · rw [upval?_updateThread, hsame.upval?, upval?_eq_some] at huv
    have hmem := Heap.mem_of_object? huv
    simp [hooked] at hmem
  · have hth₁ : L₁.thread? 1 = some hookedThread := by
      rw [hsame.thread?]
      rfl
    have hafter := hhook ev L₁ hi
    rw [hth', Option.map_some] at hafter
    obtain ⟨hfunc, hallow⟩ := Prod.mk.inj (Option.some.inj hafter)
    obtain rfl := Option.some.inj ((thread?_update hth₁ _).symm.trans hth)
    refine ⟨hfunc.trans ?_, hallow⟩
    exact (hookedThread.hookFunc_enterHook _ 2 ev (-1)).symm

/-- A hook that raises at a call leaves its own frame on top of the thread. -/
theorem raisingHook_keeps_frame :
    (hooked (some 3)).HookDiscreet raisingHook.program 1 "call" (-1) ∧
    (afterCall raisingHook (some 3)).raised = true ∧
    ((afterCall raisingHook (some 3)).after.thread? 1).map (·.frames) ≠
      some hookedThread.frames := by
  refine ⟨hooked_discreet raisingHook (some 3) fun ev L₁ hi => ?_, by decide, by decide⟩
  cases hi
  decide

theorem hookEvent_unseen_call :
    (hooked none).Unseen 1 hookedThread (returningHook.apiFree = true ∧
        (afterCall returningHook none).raised = false)
      (afterCall returningHook none).after ∧
    hookedThread.top ≤ (hooked none).liveRegsTop hookedThread ∧
    ∀ fr ∈ hookedThread.frames,
      (hooked none).windowEnd fr ≤ (hooked none).liveRegsTop hookedThread :=
  hookEvent_unseen returningHook .call callHook rfl rfl rfl (fun _ => by decide)
    (hooked_discreet returningHook none fun ev L₁ hi => by
      cases hi
      decide)

end State

end Luatier
