import Luatier.Vm.NativeSpec

/-!
# Frames are taken back

Code that never goes through `lua_pcall` has popped all its frames when it
returns.
-/

namespace Luatier

mutual

/-- The code makes no use of `lua_pcall`. -/
def Native.apiFree : Native → Bool
  | .ret _ => true
  | .raise _ => true
  | .step _ k => k.apiFree
  | .call _ _ _ callee k => callee.apiFree && k.apiFree
  | .luaPcall _ _ _ _ _ _ _ _ => false
  | .pcall callee => callee.apiFree
  | .xpcall callee handler => callee.apiFree && handler.apiFree
  | .resume _ _ _ => true

def Lua.apiFree : Lua → Bool
  | .raise _ => true
  | .step _ k => k.apiFree
  | .call _ _ _ _ callee k => callee.apiFree && k.apiFree
  | .tailcall _ _ _ callee k => callee.apiFree && k.apiFree
  | .tforcall _ _ _ callee k => callee.apiFree && k.apiFree
  | .ret _ _ k => k.apiFree
  | .invokeMm _ _ _ callee k => callee.apiFree && k.apiFree
  | .callMm _ _ _ callee k => callee.apiFree && k.apiFree

def Callee.apiFree : Callee → Bool
  | .mk native lua => native.apiFree && lua.apiFree

end

namespace State

def LuaFrame (L : State) (fr : CallFrame) : Prop :=
  fr.kind = .interpLua ∧ (fr.proto.bind L.proto?).isSome = true

end State

structure Program.Neat (program : Program) : Prop where
  interpret {L L' : State} {a : Addr} {th th' : Thread} {fs : List CallFrame}
    {fr : CallFrame} (hcurrent : L.current = some a) (hth : L.thread? a = some th)
    (hrunning : th.status = .running) (hframes : th.frames = fs ++ [fr])
    (hfr : L.LuaFrame fr) (hr : program.interpret L = .ok .ok L')
    (hth' : L'.thread? a = some th') : th'.frames = fs
  cfunc {f : Addr} {L L' : State} {a : Addr} {th th' : Thread} {n : Int}
    (hw : L.InWindow a th) (hr : program.cfunc f L = .ok n L')
    (hth' : L'.thread? a = some th') : th'.frames = th.frames

namespace State

variable {program : Program} {leaks : Leaks} {L L₁ L' : State} {a : Addr}
  {th th₁ th' : Thread} {fs : List CallFrame} {fr : CallFrame} {lim n : Nat}

theorem LuaFrame.mono (h : L.LuaFrame fr) (hu : Untouched a lim fs L L') :
    L'.LuaFrame fr := by
  obtain ⟨hkind, hproto⟩ := h
  refine ⟨hkind, ?_⟩
  cases hp : fr.proto with
  | none =>
      rw [hp] at hproto
      contradiction
  | some p =>
      rw [hp] at hproto
      exact hu.protos p hproto

theorem runCCall_frames (hp : program.Contained leaks) (hq : program.Neat)
    (hcurrent : L.current = some a) (hth : L.thread? a = some th)
    (hrunning : th.status = .running) {cl : Addr} {funcIdx nargs : Nat}
    {nresults : Wanted} {isTailcall : Bool}
    (hr : L.runCCall program a cl funcIdx nargs nresults isTailcall = .ok .ok L')
    (hth' : L'.thread? a = some th') : th'.frames = th.frames := by
  have hw := entered_inWindow hcurrent hth hrunning cl funcIdx nargs isTailcall
  obtain ⟨nret, L₂, th₂, rest, resAbs, nplaced, hf, hth₂, habove, rfl⟩ :=
    runCCall_returns hp hcurrent hth hrunning hr hth'
  obtain ⟨fr, -, -, -, -, hdrop⟩ := habove.enterC
  have hneat := hq.cfunc hw hf hth₂
  rw [habove.frames, List.append_right_eq_self] at hneat
  refine (Thread.frames_ensureStack _ _).trans ?_
  rw [hdrop, hneat]
  exact List.append_nil _

theorem callLua_frames (hp : program.Contained leaks) (hq : program.Neat)
    (hcurrent : L.current = some a) (hth : L.thread? a = some th)
    (hrunning : th.status = .running) {cl protoAddr : Addr} {funcIdx nargs : Nat}
    {nresults : Wanted}
    (hr : L.callLua program a cl protoAddr funcIdx nargs nresults = .ok .ok L')
    (hth' : L'.thread? a = some th') : th'.frames = th.frames := by
  obtain ⟨hu, hth₁⟩ := countCall_spec funcIdx th.frames hth
  unfold callLua at hr
  obtain hincr | ⟨e, hincr⟩ := L.incrCcalls_cases a
  · simp only [hincr] at hr
    obtain ⟨p, hproto, hpush⟩ | ⟨e, hpush⟩ := pushLuaFrame_cases hth₁ cl protoAddr
      funcIdx nargs nresults false
    · simp only [hpush] at hr
      obtain ⟨hu₂, th₂, fr, hth₂, habove, hbase, -, hkind, hp₂, htop₂⟩ := pushed_spec
        th.frames hth₁ cl protoAddr p funcIdx nargs nresults false
      generalize hL₂ : (L.countCall a).updateThread a
        (·.pushLuaFrame cl protoAddr p funcIdx nargs nresults false) = L₂
        at hr hu₂ hth₂
      cases hi : program.interpret L₂ with
      | error e L₃ =>
          rw [hi] at hr
          contradiction
      | ok st L₃ =>
          rw [hi] at hr
          cases hr
          have hcurrent₂ := hu₂.current.trans (hu.current.trans hcurrent)
          obtain ⟨hu₃, -, th₃, rest, hth₃, -⟩ := hp.interpret hcurrent₂ hth₂
            (habove.status.trans hrunning) habove.frames (hbase ▸ htop₂)
          rw [hi] at hth₃
          have hfr : L₂.LuaFrame fr := by
            refine ⟨hkind, ?_⟩
            rw [hp₂]
            exact hu₂.protos protoAddr (by rw [hproto]; rfl)
          have hframes := hq.interpret hcurrent₂ hth₂ (habove.status.trans hrunning)
            habove.frames hfr hi hth₃
          obtain rfl := Option.some.inj
            ((thread?_update hth₃ Thread.uncountCall).symm.trans hth')
          exact hframes
    · rw [hpush] at hr
      contradiction
  · rw [hincr] at hr
    contradiction

theorem callClosure_frames (hp : program.Contained leaks) (hq : program.Neat)
    (hcurrent : L.current = some a) (hth : L.thread? a = some th)
    (hrunning : th.status = .running) {cl : Addr} {nargs : Nat} {nresults : Wanted}
    (hr : L.callClosure program cl nargs nresults = .ok .ok L')
    (hth' : L'.thread? a = some th') : th'.frames = th.frames := by
  unfold callClosure at hr
  have hthread : (L.current.bind fun a => (L.thread? a).map (a, ·)) =
      some (a, th) := currentThread?_eq hcurrent hth
  simp only [hthread] at hr
  cases hcl : L.closure? cl with
  | none =>
      rw [hcl] at hr
      contradiction
  | some c =>
      simp only [hcl] at hr
      split at hr
      · contradiction
      · cases hc : c.proto with
        | none =>
            simp only [hc] at hr
            exact runCCall_frames hp hq hcurrent hth hrunning hr hth'
        | some p =>
            simp only [hc] at hr
            exact callLua_frames hp hq hcurrent hth hrunning hr hth'

/-! ## Instructions -/

theorem callFlat_frames (hp : program.Contained leaks) (hq : program.Neat)
    (hcurrent : L.current = some a) (hth : L.thread? a = some th)
    (hrunning : th.status = .running) {f : Addr} {funcIdx nargs : Nat}
    {nresults : Wanted} {isTailcall : Bool}
    (hr : L.callFlat program a f funcIdx nargs nresults isTailcall = .ok .ok L')
    (hth' : L'.thread? a = some th') :
    ∃ rest, th'.frames = th.frames ++ rest ∧ ∀ fr ∈ rest, L'.LuaFrame fr := by
  unfold callFlat at hr
  cases hcl : L.closure? f with
  | none =>
      rw [hcl] at hr
      contradiction
  | some c =>
      cases hc : c.proto with
      | none =>
          simp only [hcl, hc] at hr
          refine ⟨[], ?_, fun fr hfr => absurd hfr List.not_mem_nil⟩
          rw [List.append_nil]
          exact runCCall_frames hp hq hcurrent hth hrunning hr hth'
      | some p =>
          simp only [hcl, hc] at hr
          obtain ⟨p', hproto, hpush⟩ | ⟨e, hpush⟩ := pushLuaFrame_cases hth f p funcIdx
            nargs nresults isTailcall
          · obtain ⟨hu, th₁, fr, hth₁, habove, -, -, hkind, hfr, -⟩ :=
              pushed_spec th.frames hth f p p' funcIdx nargs nresults isTailcall
            rw [hpush] at hr
            cases hr
            obtain rfl := Option.some.inj (hth₁.symm.trans hth')
            refine ⟨[fr], habove.frames, fun fr' hfr' => ?_⟩
            rw [List.mem_singleton.mp hfr']
            refine ⟨hkind, ?_⟩
            rw [hfr]
            exact hu.protos p (by rw [hproto]; rfl)
          · rw [hpush] at hr
            contradiction

theorem metaCall_frames (hp : program.Contained leaks) (hq : program.Neat)
    (hcurrent : L.current = some a) (hth : L.thread? a = some th)
    (hrunning : th.status = .running) {funcIdx nargs : Nat} {nresults : Wanted}
    {e : String} (hr : L.metaCall program a funcIdx nargs nresults e = .ok .ok L')
    (hth' : L'.thread? a = some th') : th'.frames = th.frames := by
  unfold metaCall at hr
  obtain ⟨cl, h⟩ | ⟨v, mm, h⟩ | ⟨v, h⟩ := L.metaCallee_cases a funcIdx nargs
  · simp only [h] at hr
    exact callClosure_frames hp hq hcurrent hth hrunning hr hth'
  · simp only [h] at hr
    have hsame := L.getMetamethod_sameCalls v .call
    generalize (L.getMetamethod v .call).2 = L₁ at hsame hr
    have hth₁ : L₁.thread? a = some th := by rw [hsame.thread?, hth]
    have hcontrol := Thread.SameControl.insertMm th funcIdx nargs mm
    refine (callClosure_frames hp hq
      (current_update (hsame.current.trans hcurrent) (·.insertMm funcIdx nargs mm))
      (thread?_update hth₁ _) (hcontrol.status.trans hrunning) hr hth').trans ?_
    exact hcontrol.frames
  · rw [h] at hr
    contradiction

theorem metaCallOp_frames (hp : program.Contained leaks) (hq : program.Neat)
    (hcurrent : L.current = some a) (hth : L.thread? a = some th)
    (hrunning : th.status = .running) {funcIdx nargs : Nat} {nresults : Wanted}
    {e : String} (htop : th.top = funcIdx + 1 + nargs)
    (hr : L.metaCallOp program a funcIdx nargs nresults e = .ok .ok L')
    (hth' : L'.thread? a = some th') : th'.frames = th.frames := by
  unfold metaCallOp at hr
  have hcall := metaCall_leaves hp hcurrent hth hrunning htop (some (nresults.getD 1)) e
  cases hm : L.metaCall program a funcIdx nargs (some (nresults.getD 1)) e with
  | error e' L₁ =>
      rw [hm] at hr
      contradiction
  | ok st L₁ =>
      rw [hm] at hcall hr
      obtain rfl := hcall.finished st L₁ rfl
      cases hr
      exact metaCall_frames hp hq hcurrent hth hrunning hm hth'

end State

def Lua.Neat (lua : Lua) : Prop :=
  ∀ {L L' : State} {a : Addr} {th th' : Thread} {fs rest : List CallFrame},
    L.current = some a → L.thread? a = some th → th.status = .running →
    th.frames = fs ++ rest → (∀ fr ∈ rest, L.LuaFrame fr) →
    lua.run (fs.length + 1) L = .ok .ok L' → L'.thread? a = some th' →
    th'.frames = fs

namespace Lua

open State

variable {L L' : State} {a : Addr} {th th' : Thread} {fs rest : List CallFrame}
  {lim k : Nat} {r : Result Status}

theorem not_interpreting (hcurrent : L.current = some a)
    (hth : L.thread? a = some th) (hframes : th.frames = fs ++ rest)
    (hrest : ∀ fr ∈ rest, L.LuaFrame fr)
    (h : L.interpreting? (fs.length + 1) = none) : th.frames = fs := by
  obtain rfl | ⟨init, fr, rfl⟩ := List.eq_nil_or_concat' rest
  · rw [hframes, List.append_nil]
  obtain ⟨hkind, hproto⟩ := hrest fr List.mem_concat_self
  unfold interpreting? at h
  rw [currentThread?_eq hcurrent hth, Option.filter_eq_none_iff] at h
  have hlast : th.frames.getLast? = some fr := by
    rw [hframes, ← List.append_assoc, List.getLast?_concat]
  have hdepth : fs.length + 1 ≤ th.frames.length := by
    rw [hframes, List.length_append, List.length_append, List.length_singleton]
    omega
  have hcond := h (a, th) rfl
  simp only [hlast, hdepth, hkind, hproto, Option.any_some, beq_self_eq_true,
    decide_true, Bool.and_true, not_true_eq_false] at hcond

theorem Neat.after {lua : Lua} (hlua : lua.Neat) (hcurrent : L.current = some a)
    (hrunning : th.status = .running) (h : L.LeavesAbove a th lim fs k r)
    (hframes : ∀ {L₁ th₁}, r = .ok .ok L₁ → L₁.thread? a = some th₁ →
      ∃ rest, th₁.frames = fs ++ rest ∧ ∀ fr ∈ rest, L₁.LuaFrame fr)
    (hr : r.andThen (lua.run (fs.length + 1)) = .ok .ok L')
    (hth' : L'.thread? a = some th') : th'.frames = fs := by
  obtain ⟨hu, hfinished, th₁, rest, hth₁, habove, -⟩ := h
  cases r with
  | error e L₁ => contradiction
  | ok st L₁ =>
      obtain rfl := hfinished st L₁ rfl
      obtain ⟨rest₁, hframes₁, hrest₁⟩ := hframes rfl hth₁
      exact hlua (hu.current.trans hcurrent) hth₁ (habove.status.trans hrunning)
        hframes₁ hrest₁ hr hth'

/--
An activation whose next instruction is `op`: it keeps the frames but for some
on top, and what it adds are frames of Lua.
-/
theorem neat_of_op {lua next : Lua} (hnext : next.Neat)
    {op : Addr → Thread → State → Result Status}
    (hrun : ∀ entryDepth L, lua.run entryDepth L =
      match L.interpreting? entryDepth with
      | none => .ok .ok L
      | some (a, th) => (op a th L).andThen (next.run entryDepth))
    (hop : ∀ {L : State} {a : Addr} {th : Thread} {fs rest : List CallFrame},
      L.current = some a → L.thread? a = some th → th.status = .running →
      th.frames = fs ++ rest → rest ≠ [] → th.base ≤ L.liveRegsTop th →
      ∃ kept lim k, kept <+: rest ∧ L.LeavesAbove a th lim (fs ++ kept) k (op a th L) ∧
        ∀ {L₁ th₁}, op a th L = .ok .ok L₁ → L₁.thread? a = some th₁ →
          ∃ more, th₁.frames = fs ++ kept ++ more ∧ ∀ fr ∈ more, L₁.LuaFrame fr) :
    lua.Neat := by
  intro L L' a th th' fs rest hcurrent hth hrunning hframes hrest hr hth'
  rw [hrun] at hr
  split at hr
  · rename_i h
    cases hr
    obtain rfl := Option.some.inj (hth.symm.trans hth')
    exact not_interpreting hcurrent hth hframes hrest h
  · rename_i b t h
    obtain ⟨rfl, rfl, hne, -, hlive⟩ := interpreting?_some hcurrent hth hframes
      (fun fr _ => Nat.zero_le fr.base) h
    obtain ⟨kept, lim, k, hkept, hleaves, hmore⟩ :=
      hop hcurrent hth hrunning hframes hne hlive
    have hu := hleaves.untouched
    refine hnext.after hcurrent hrunning
      (hleaves.mono (Nat.zero_le lim) fun fr _ => Nat.zero_le fr.base) ?_ hr hth'
    intro L₁ th₁ hok hth₁
    rw [hok] at hu
    obtain ⟨more, hframes₁, hluaFrames⟩ := hmore hok hth₁
    refine ⟨kept ++ more, hframes₁.trans (List.append_assoc _ _ _), fun fr hfr => ?_⟩
    rcases List.mem_append.mp hfr with hfr | hfr
    · exact (hrest fr (hkept.subset hfr)).mono hu
    · exact hluaFrames fr hfr

end Lua

/-! ## Native functions -/

namespace State

def KeepsFrames (a : Addr) (L L' : State) : Prop :=
  ∀ th, L.thread? a = some th → ∃ th', L'.thread? a = some th' ∧
    th'.frames = th.frames

namespace KeepsFrames

variable {L L₁ L₂ : State} {a co : Addr} {th : Thread} {r : Result Status}

theorem refl (L : State) : KeepsFrames a L L := fun th hth => ⟨th, hth, rfl⟩

theorem trans (h₁ : KeepsFrames a L L₁) (h₂ : KeepsFrames a L₁ L₂) :
    KeepsFrames a L L₂ := by
  intro th hth
  obtain ⟨th₁, hth₁, hframes₁⟩ := h₁ th hth
  obtain ⟨th₂, hth₂, hframes₂⟩ := h₂ th₁ hth₁
  exact ⟨th₂, hth₂, hframes₂.trans hframes₁⟩

theorem updateThread (L : State) (co : Addr) (f : Thread → Thread)
    (hf : ∀ th, (f th).frames = th.frames) :
    KeepsFrames a L (L.updateThread co f) := by
  intro th hth
  by_cases hco : a = co
  · subst hco
    exact ⟨f th, thread?_update hth f, hf th⟩
  · exact ⟨th, (L.thread?_updateThread_ne f hco).trans hth, rfl⟩

theorem withCurrentThread (L : State) (b : Addr) :
    KeepsFrames a L (L.withCurrentThread b) := refl L

theorem setWindow (L : State) (vs : List TValue) :
    KeepsFrames a L (L.setWindow vs) := by
  unfold State.setWindow withCurrent
  split
  · exact updateThread L _ _ fun th => (th.setWindow_spec vs).1.frames
  · exact refl L

theorem intern (L : State) (s : String) : KeepsFrames a L (L.intern s).after :=
  fun th hth => ⟨th, by rw [(L.intern_sameCalls s).thread?, hth], rfl⟩

theorem returnOk (L : State) (results : List TValue) :
    KeepsFrames a L (L.returnOk co results).after :=
  (withCurrentThread L co).trans (setWindow _ _)

theorem returnErr (L : State) (msg : String) :
    KeepsFrames a L (L.returnErr co msg).after := by
  unfold State.returnErr
  have hintern := intern (a := a) (L.withCurrentThread co) msg
  cases hi : (L.withCurrentThread co).intern msg with
  | error e L₁ =>
      rw [hi] at hintern
      exact hintern
  | ok s L₁ =>
      rw [hi] at hintern
      exact hintern.trans (setWindow _ _)

theorem resumeDone (L : State) (b : Addr) (st : Status) :
    KeepsFrames a L (L.resumeDone b co st).after := by
  cases st with
  | ok =>
      exact (updateThread L co ({ · with status := .dead }) fun _ => rfl).trans
        (returnOk _ _)
  | yield =>
      exact (updateThread L co ({ · with status := .suspended, yieldVals := [] })
        fun _ => rfl).trans (returnOk _ _)

theorem deadObject (L : State) (e : String) :
    KeepsFrames a L (L.deadObject co e).after := by
  have hintern := intern (a := a) L e
  rw [← after_bindOk _ TValue.string] at hintern
  unfold State.deadObject
  split
  · split
    · exact refl L
    · exact hintern
  · exact hintern

theorem resumeDead (L : State) (b : Addr) (e : String) :
    KeepsFrames a L (L.resumeDead b co e).after := by
  unfold State.resumeDead
  have hmade : KeepsFrames a _ ((L.withCurrentThread b).deadObject co e).after :=
    deadObject (L.withCurrentThread b) e
  cases hd : (L.withCurrentThread b).deadObject co e with
  | error e' L₁ =>
      rw [hd] at hmade
      exact hmade
  | ok v L₁ =>
      rw [hd] at hmade
      exact hmade.trans ((updateThread L₁ co
        ({ · with errObjSet := false, status := .dead }) fun _ => rfl).trans
          (setWindow _ _))

theorem elsewhere (hrun : L.Running a) (hne : a ≠ co) (h : Elsewhere co L L₁) :
    KeepsFrames a L L₁ := by
  intro th hth
  obtain ⟨-, th', hth', hframes, -⟩ := (h.others a hne hrun).thread hth
  exact ⟨th', hth', hframes⟩

theorem resumeExit (hrun : L.Running a) (hne : a ≠ co) (b : Addr)
    {goOn : Bool → String → State → Result Status}
    (hgoOn : ∀ ok e {L : State}, L.current = some co →
      Elsewhere co L (goOn ok e L).after) (hcurrent : L.current = some co)
    (h : Elsewhere co L r.after) :
    KeepsFrames a L (Result.unwind (decrCcalls · co)
      (State.resumeExit goOn b co r)).after := by
  rw [Result.after_unwind]
  refine trans ?_ (updateThread _ co Thread.uncountCall fun _ => rfl)
  cases r with
  | ok st L₁ => exact (elsewhere hrun hne h).trans (resumeDone L₁ b st)
  | error e L₁ =>
      unfold State.resumeExit
      simp only
      split
      · have hgo := h.trans (hgoOn false e (h.current.trans hcurrent))
        cases hr : goOn false e L₁ with
        | ok st L₂ =>
            rw [Result.after_error, hr] at hgo
            exact (elsewhere hrun hne hgo).trans (resumeDone L₂ b st)
        | error e₂ L₂ =>
            rw [Result.after_error, hr] at hgo
            exact (elsewhere hrun hne hgo).trans (resumeDead L₂ b e₂)
      · exact (elsewhere hrun hne h).trans (resumeDead L₁ b e)

end KeepsFrames

variable {program handler : Program} {leaks hleaks : Leaks} {L L' : State}
  {a : Addr} {th th' : Thread} {n : Int}

theorem coResume_frames (hw : L.InWindow a th)
    {start : Addr → Nat → State → Result Status}
    {goOn : Bool → String → State → Result Status}
    (hstart : ∀ cl n {co : Addr} {L : State}, L.current = some co →
      Elsewhere co L (start cl n L).after)
    (hgoOn : ∀ ok e {co : Addr} {L : State}, L.current = some co →
      Elsewhere co L (goOn ok e L).after) :
    KeepsFrames a L (L.coResume start goOn).after := by
  unfold coResume
  rw [hw.currentThread?]
  simp only
  split
  · rename_i co args hwindow
    cases hco : L.thread? co with
    | none => exact .refl L
    | some t =>
        have henter : t.status ≠ .running → KeepsFrames a L
            (Result.unwind (decrCcalls · co) (resumeExit goOn a co
              (((L.updateThread co ({ · with nCcalls := th.nCcalls + 1 })
                ).withCurrentThread co).runCoroutine start goOn co t args))).after := by
          intro hstatus
          have hne : a ≠ co := by
            rintro rfl
            obtain rfl : th = t := Option.some.inj (hw.thread.symm.trans hco)
            exact hstatus hw.running
          have hrun : ((L.updateThread co ({ · with nCcalls := th.nCcalls + 1 })
              ).withCurrentThread co).Running a :=
            ⟨th, (L.thread?_updateThread_ne _ hne).trans hw.thread, hw.running⟩
          exact (KeepsFrames.updateThread L co ({ · with nCcalls := th.nCcalls + 1 })
            fun _ => rfl).trans (KeepsFrames.resumeExit hrun hne a
              (fun ok e _ h => hgoOn ok e h) rfl
              (runCoroutine_elsewhere (fun cl n _ h => hstart cl n h)
                (fun ok e _ h => hgoOn ok e h) rfl t args))
        simp only
        split
        all_goals first
          | exact .returnErr L _
          | rename_i hstatus
            split
            · exact .returnErr L _
            · exact henter (by rw [hstatus]; exact ThreadStatus.noConfusion)
  · exact .refl L
  · exact .refl L

theorem Restores.frames {k : Nat} (h : L.Restores a th k 0 L')
    (hth' : L'.thread? a = some th') : th'.frames = th.frames := by
  obtain ⟨-, th₁, rest, hth₁, habove, hlen, -⟩ := h
  obtain rfl := Option.some.inj (hth₁.symm.trans hth')
  obtain rfl := List.length_eq_zero_iff.mp hlen
  exact habove.frames.trans (List.append_nil _)

theorem protectedCall_frames (hp : program.Contained leaks) (hq : program.Neat)
    (hw : L.InWindow a th) {f : TValue} {args : List TValue}
    (hr : (L.setWindow (f :: args)).protectedCall program f args.length = .ok .ok L') :
    KeepsFrames a L (L'.protectedResults).after := by
  obtain ⟨hcontrol, -, -⟩ := th.setWindow_spec (f :: args)
  rw [State.setWindow, withCurrent_eq hw.current] at hr
  unfold State.protectedCall at hr
  cases f with
  | function cl =>
      simp only at hr
      have hcurrent := current_update hw.current (·.setWindow (.function cl :: args))
      have hth₁ := thread?_update hw.thread (·.setWindow (.function cl :: args))
      rw [adjustNny, withCurrent_eq hcurrent] at hr
      cases hc : ((L.updateThread a (·.setWindow (.function cl :: args))).updateThread a
          (·.adjustNny (-1))).callClosure program cl args.length none with
      | error e L₁ =>
          rw [hc] at hr
          contradiction
      | ok st L₁ =>
          rw [hc] at hr
          cases hr
          have hcall := callClosure_leaves hp (current_update hcurrent _)
            (thread?_update hth₁ (·.adjustNny (-1)))
            (hcontrol.status.trans hw.running) cl args.length none
          rw [hc] at hcall
          obtain ⟨hu, -, th₂, -, hth₂, -⟩ := hcall
          have hframes : th₂.frames = th.frames :=
            (callClosure_frames hp hq (current_update hcurrent _)
              (thread?_update hth₁ (·.adjustNny (-1)))
              (hcontrol.status.trans hw.running) hc hth₂).trans hcontrol.frames
          have hcurrent₂ : L'.current = some a := hu.current.trans hcurrent
          have hreturned : KeepsFrames a L L' := by
            intro t ht
            obtain rfl := Option.some.inj (hw.thread.symm.trans ht)
            exact ⟨th₂, hth₂, hframes⟩
          unfold protectedResults
          rw [adjustNny, withCurrent_eq hcurrent₂]
          exact hreturned.trans ((KeepsFrames.updateThread L' a (·.adjustNny 1)
            fun _ => rfl).trans (KeepsFrames.setWindow _ _))
  | _ => contradiction

theorem basePcall_frames (hp : program.Contained leaks) (hq : program.Neat)
    (hw : L.InWindow a th) (hr : L.basePcall program = .ok n L')
    (hth' : L'.thread? a = some th') : th'.frames = th.frames := by
  unfold State.basePcall at hr
  rw [hw.currentThread?] at hr
  simp only at hr
  cases hargs : th.window with
  | nil =>
      rw [hargs] at hr
      contradiction
  | cons f args =>
      simp only [hargs] at hr
      obtain ⟨L₁, hr₁, -⟩ | ⟨e, L₁, hr₁, hleaves⟩ := protectedCall_window hp hw f args
      · have hframes := protectedCall_frames hp hq hw hr₁
        simp only [hr₁] at hr
        rw [hr] at hframes
        obtain ⟨th₁, hth₁, hframes₁⟩ := hframes th hw.thread
        obtain rfl := Option.some.inj (hth₁.symm.trans hth')
        exact hframes₁
      · have hcatch := hleaves.catchError hw.current
        simp only [hr₁] at hr
        cases hc : L₁.catchError th.frames.length e with
        | error e' L₂ =>
            rw [hc] at hr
            contradiction
        | ok emsg L₂ =>
            rw [hc] at hr hcatch
            cases hr
            exact (hcatch.setWindow hw.current _).frames hth'

theorem handlerFrames_eq_zero (hh : handler.Contained hleaks) (hq : handler.Neat)
    (hw : L.InWindow a th) (msgh emsg : TValue) :
    handlerFrames handler L msgh emsg = 0 := by
  unfold handlerFrames
  cases msgh with
  | function cl =>
      simp only
      cases hc : (L.setWindow [.function cl, emsg]).callClosure handler cl 1
        (some 1) with
      | error e L₁ => rfl
      | ok st L₁ =>
          have hcall := hw.callWindow hh (.function cl) [emsg] cl (some 1)
          rw [List.length_singleton, hc] at hcall
          obtain rfl := hcall.finished st L₁ rfl
          obtain ⟨hu, -, th₁, -, hth₁, -⟩ := hcall
          obtain ⟨hcontrol, -, -⟩ := th.setWindow_spec [.function cl, emsg]
          rw [State.setWindow, withCurrent_eq hw.current] at hc
          have hframes := callClosure_frames hh hq (current_update hw.current _)
            (thread?_update hw.thread _) (hcontrol.status.trans hw.running) hc hth₁
          have hdepth : L₁.frameDepth = th₁.frames.length :=
            frameDepth_eq (hu.current.trans hw.current) hth₁
          simp only [hdepth, frameDepth_eq hw.current hw.thread]
          rw [hframes, hcontrol.frames, Nat.sub_self]
  | _ => rfl

theorem baseXpcall_frames (hp : program.Contained leaks) (hq : program.Neat)
    (hh : handler.Contained hleaks) (hqh : handler.Neat) (hw : L.InWindow a th)
    (hr : L.baseXpcall program handler = .ok n L')
    (hth' : L'.thread? a = some th') : th'.frames = th.frames := by
  unfold State.baseXpcall at hr
  rw [hw.currentThread?] at hr
  simp only at hr
  split at hr
  · rename_i f msgh args _
    obtain ⟨L₁, hr₁, -⟩ | ⟨e, L₁, hr₁, hleaves⟩ := protectedCall_window hp hw f args
    · have hframes := protectedCall_frames hp hq hw hr₁
      simp only [hr₁] at hr
      rw [hr] at hframes
      obtain ⟨th₁, hth₁, hframes₁⟩ := hframes th hw.thread
      obtain rfl := Option.some.inj (hth₁.symm.trans hth')
      exact hframes₁
    · have hcatch := hleaves.catchError hw.current
      simp only [hr₁] at hr
      cases hc : L₁.catchError th.frames.length e with
      | error e' L₂ =>
          rw [hc] at hr
          contradiction
      | ok emsg L₂ =>
          rw [hc] at hr
          rw [hc, Result.after_ok] at hcatch
          obtain ⟨th₂, -, hw₂, -⟩ := hcatch.keeps.inWindow hw
          have hhandled := hcatch.handled hh hw msgh emsg
          rw [handlerFrames_eq_zero hh hqh hw₂] at hhandled
          have hafter : (L₂.callHandler handler msgh emsg th.frames.length).after =
              L' := by
            rw [show L₂.callHandler handler msgh emsg th.frames.length = .ok n L'
              from hr]
            rfl
          rw [hafter] at hhandled
          exact hhandled.frames hth'
  · contradiction

end State

def Native.Neat (native : Native) : Prop :=
  ∀ {L L' : State} {a : Addr} {th th' : Thread} {n : Int}, L.InWindow a th →
    native.exec L = .ok n L' → L'.thread? a = some th' → th'.frames = th.frames

namespace Native

open State

theorem neat_step {native : Native} (hnative : native.Neat) (s : NativeStep) :
    (Native.step s native).Neat := by
  intro L L' a th th' n hw hr hth'
  obtain ⟨hu, th₁, hth₁, hframes, hbase, -, -, hstatus, htop⟩ :=
    s.confined hw.current hw.thread
  have hw₁ : (s.run L).InWindow a th₁ := by
    refine ⟨hu.current.trans hw.current, hth₁, hstatus.trans hw.running, ?_⟩
    rw [hbase]
    exact (Nat.le_min.mpr ⟨Nat.le_refl _, hw.top⟩).trans htop
  exact (hnative hw₁ hr hth').trans hframes

theorem neat_call {callee : Callee} {native : Native}
    (hp : callee.program.Contained callee.leaks) (hq : callee.program.Neat)
    (hnative : native.Neat) (f : Addr) (args : List TValue) (nresults : Wanted) :
    (Native.call f args nresults callee native).Neat := by
  intro L L' a th th' n hw hr hth'
  unfold Native.exec at hr
  obtain ⟨hkeeps, hth₁⟩ := pushed_keeps (.function f :: args) hw
  obtain ⟨th₁, -, hw₁, -⟩ := hkeeps.inWindow hw
  obtain rfl := Option.some.inj (hth₁.symm.trans hw₁.thread)
  obtain ⟨hcontrol, htop, -⟩ := Thread.push_fold (.function f :: args) th
  generalize (TValue.function f :: args).foldl State.push L = L₁ at hr hth₁ hw₁
  cases hc : L₁.callClosure callee.program f args.length nresults with
  | error e L₂ =>
      rw [hc] at hr
      contradiction
  | ok st L₂ =>
      rw [hc] at hr
      have hcall := callClosure_leaves hp hw₁.current hw₁.thread hw₁.running f
        args.length nresults
      rw [hc] at hcall
      obtain rfl := hcall.finished st L₂ rfl
      obtain ⟨th₂, -, hw₂, -⟩ := KeepsWindow.inWindow hw₁ (hcall.keeps (by
        have hbase := hw.top
        rw [htop, hcontrol.stackBase, List.length_cons]
        omega))
      exact (hnative hw₂ hr hth').trans ((callClosure_frames hp hq hw₁.current
        hw₁.thread hw₁.running hc hw₂.thread).trans hcontrol.frames)

theorem neat_resume (start goOn again : CoroutineRun) :
    (Native.resume start goOn again).Neat := by
  intro L L' a th th' n hw hr hth'
  unfold Native.exec at hr
  have hkeeps : KeepsFrames a L (L.coResume (fun _ _ => start.run)
      (fun ok _ => if ok then goOn.run else again.run)).after := by
    refine coResume_frames hw (fun _ _ _ _ h => start.elsewhere h) fun ok _ _ _ h => ?_
    cases ok with
    | true => exact goOn.elsewhere h
    | false => exact again.elsewhere h
  rw [hr] at hkeeps
  obtain ⟨th₁, hth₁, hframes⟩ := hkeeps th hw.thread
  obtain rfl := Option.some.inj (hth₁.symm.trans hth')
  exact hframes

end Native

namespace Lua

open State

theorem neat_call {callee : Callee} {next : Lua}
    (hp : callee.program.Contained callee.leaks) (hq : callee.program.Neat)
    (hnext : next.Neat) (ra nargs : Nat) (nresults : Wanted) (e : String) :
    (Lua.call ra nargs nresults e callee next).Neat := by
  refine neat_of_op hnext (fun _ _ => rfl) ?_
  intro L a th fs rest hcurrent hth hrunning hframes _ _
  have hop := opCall_leaves hp hcurrent hth hrunning ra nargs nresults e
  refine ⟨rest, _, _, List.prefix_refl rest, hframes ▸ hop, ?_⟩
  intro L₁ th₁ hr hth₁
  have hcontrol := Thread.SameControl.raiseTop th (th.base + ra) nargs
  have hcurrent₁ := current_update hcurrent (·.raiseTop (th.base + ra) nargs)
  have hth₂ := thread?_update hth (·.raiseTop (th.base + ra) nargs)
  have hrunning₁ := hcontrol.status.trans hrunning
  rw [← hframes, ← hcontrol.frames]
  unfold opCall at hr
  simp only at hr
  split at hr
  · exact callFlat_frames hp hq hcurrent₁ hth₂ hrunning₁ hr hth₁
  · refine ⟨[], ?_, fun _ hfr => absurd hfr List.not_mem_nil⟩
    rw [List.append_nil]
    exact metaCallOp_frames hp hq hcurrent₁ hth₂ hrunning₁ rfl hr hth₁

theorem neat_tailcall {callee : Callee} {next : Lua}
    (hp : callee.program.Contained callee.leaks) (hq : callee.program.Neat)
    (hnext : next.Neat) (ra nargs : Nat) (e : String) :
    (Lua.tailcall ra nargs e callee next).Neat := by
  refine neat_of_op hnext (fun _ _ => rfl) ?_
  intro L a th fs rest hcurrent hth hrunning hframes hne hlive
  have hop := opTailcall_leaves hp hcurrent hth hrunning hlive ra nargs e
  rw [hframes, List.dropLast_append_of_ne_nil hne] at hop
  refine ⟨rest.dropLast, _, _, List.dropLast_prefix rest, hop, ?_⟩
  intro L₁ th₁ hr hth₁
  obtain ⟨hu, th₂, hth₂, habove, htop⟩ :=
    slideCall_spec hth hlive ra nargs th.frames.dropLast
  have hframes₂ : th₂.frames = fs ++ rest.dropLast := by
    rw [habove.frames, List.append_nil, hframes, List.dropLast_append_of_ne_nil hne]
  have hcurrent₂ := hu.current.trans hcurrent
  have hrunning₂ := habove.status.trans hrunning
  rw [← hframes₂]
  unfold opTailcall at hr
  simp only at hr
  split at hr
  · exact callFlat_frames hp hq hcurrent₂ hth₂ hrunning₂ hr hth₁
  · refine ⟨[], ?_, fun _ hfr => absurd hfr List.not_mem_nil⟩
    rw [List.append_nil]
    exact metaCallOp_frames hp hq hcurrent₂ hth₂ hrunning₂ htop hr hth₁

theorem neat_tforcall {callee : Callee} {next : Lua}
    (hp : callee.program.Contained callee.leaks) (hq : callee.program.Neat)
    (hnext : next.Neat) (ra c : Nat) (e : String) :
    (Lua.tforcall ra c e callee next).Neat := by
  refine neat_of_op hnext (fun _ _ => rfl) ?_
  intro L a th fs rest hcurrent hth hrunning hframes _ _
  have hop := opTforcall_leaves hp hcurrent hth hrunning ra c e
  refine ⟨rest, _, _, List.prefix_refl rest, hframes ▸ hop, ?_⟩
  intro L₁ th₁ hr hth₁
  have hcontrol := Thread.SameControl.copyIterator th (th.base + ra + 3) c
  have hcurrent₁ := current_update hcurrent (·.copyIterator (th.base + ra + 3) c)
  have hth₂ := thread?_update hth (·.copyIterator (th.base + ra + 3) c)
  have hrunning₁ := hcontrol.status.trans hrunning
  have htop : (th.copyIterator (th.base + ra + 3) c).top =
      th.base + ra + 3 + 1 + 2 := rfl
  refine ⟨[], ?_, fun _ hfr => absurd hfr List.not_mem_nil⟩
  rw [List.append_nil, ← hframes, ← hcontrol.frames]
  unfold opTforcall at hr
  simp only at hr
  split at hr
  · exact callClosure_frames hp hq hcurrent₁ hth₂ hrunning₁ hr hth₁
  · exact metaCallOp_frames hp hq hcurrent₁ hth₂ hrunning₁ htop hr hth₁

theorem neat_invokeMm {callee : Callee} {next : Lua}
    (hp : callee.program.Contained callee.leaks) (hq : callee.program.Neat)
    (hnext : next.Neat) (mm : TValue) (args : List TValue) (nout : Nat) :
    (Lua.invokeMm mm args nout callee next).Neat := by
  refine neat_of_op hnext (fun _ _ => rfl) ?_
  intro L a th fs rest hcurrent hth hrunning hframes _ _
  have hop := invokeMm_leaves hp hcurrent hth hrunning (List.append_nil _).symm
    (fun _ hfr => absurd hfr List.not_mem_nil) (Nat.zero_le _)
    (Nat.zero_le _) mm args nout
  refine ⟨rest, _, _, List.prefix_refl rest, hframes ▸ hop, ?_⟩
  intro L₁ th₁ hr hth₁
  rw [← hframes]
  unfold State.invokeMm at hr
  cases mm with
  | function f =>
      have hcontrol := Thread.SameControl.pushMm th (L.liveRegsTop th) (.function f)
        args nout
      rw [← hcontrol.frames]
      exact callFlat_frames hp hq (current_update hcurrent _) (thread?_update hth _)
        (hcontrol.status.trans hrunning) hr hth₁
  | _ => contradiction

theorem neat_callMm {callee : Callee} {next : Lua}
    (hp : callee.program.Contained callee.leaks) (hq : callee.program.Neat)
    (hnext : next.Neat) (mm : TValue) (args : List TValue) (nout : Nat) :
    (Lua.callMm mm args nout callee next).Neat := by
  refine neat_of_op hnext (fun _ _ => rfl) ?_
  intro L a th fs rest hcurrent hth hrunning hframes _ _
  have hop := callMm_leaves hp hcurrent hth hrunning (List.append_nil _).symm
    (fun _ hfr => absurd hfr List.not_mem_nil) (Nat.zero_le _)
    (Nat.zero_le _) mm args nout
  refine ⟨rest, _, _, List.prefix_refl rest, hframes ▸ hop, ?_⟩
  intro L₁ th₁ hr hth₁
  refine ⟨[], ?_, fun _ hfr => absurd hfr List.not_mem_nil⟩
  rw [List.append_nil, ← hframes]
  unfold State.callMm at hr
  cases mm with
  | function f =>
      have hcontrol := Thread.SameControl.pushMm th (L.liveRegsTop th) (.function f)
        args nout
      simp only at hr
      cases hc : (L.updateThread a (·.pushMm (L.liveRegsTop th) (.function f) args nout)
          ).callClosure callee.program f args.length (some nout) with
      | error e L₂ =>
          rw [hc] at hr
          contradiction
      | ok st L₂ =>
          rw [hc] at hr
          cases hr
          have hcall := callClosure_leaves hp (current_update hcurrent _)
            (thread?_update hth (·.pushMm (L.liveRegsTop th) (.function f) args nout))
            (hcontrol.status.trans hrunning) f args.length (some nout)
          rw [hc] at hcall
          obtain rfl := hcall.finished st L₂ rfl
          obtain ⟨-, -, th₂, -, hth₂, -⟩ := hcall
          obtain rfl := Option.some.inj ((thread?_update hth₂ _).symm.trans hth₁)
          exact (callClosure_frames hp hq (current_update hcurrent _)
            (thread?_update hth (·.pushMm (L.liveRegsTop th) (.function f) args nout))
            (hcontrol.status.trans hrunning) hc hth₂).trans hcontrol.frames
  | _ => contradiction

theorem neat_ret {next : Lua} (hnext : next.Neat) (ra nret : Nat) :
    (Lua.ret ra nret next).Neat := by
  intro L L' a th th' fs rest hcurrent hth hrunning hframes hrest hr hth'
  unfold Lua.run at hr
  split at hr
  · rename_i h
    cases hr
    obtain rfl := Option.some.inj (hth.symm.trans hth')
    exact not_interpreting hcurrent hth hframes hrest h
  · rename_i b t h
    obtain ⟨rfl, rfl, hne, -, -⟩ := interpreting?_some hcurrent hth hframes
      (fun fr _ => Nat.zero_le fr.base) h
    obtain ⟨hu, th₁, hth₁, habove, -⟩ := opReturn_spec hth ra nret []
    have hframes₁ : th₁.frames = fs ++ rest.dropLast := by
      rw [habove.frames, List.append_nil, hframes, List.dropLast_append_of_ne_nil hne]
    exact hnext (hu.current.trans hcurrent) hth₁ (habove.status.trans hrunning)
      hframes₁ (fun fr hfr => (hrest fr (List.mem_of_mem_dropLast hfr)).mono hu) hr hth'

theorem neat_step {next : Lua} (hnext : next.Neat) (s : LuaStep) :
    (Lua.step s next).Neat := by
  intro L L' a th th' fs rest hcurrent hth hrunning hframes hrest hr hth'
  unfold Lua.run at hr
  split at hr
  · rename_i h
    cases hr
    obtain rfl := Option.some.inj (hth.symm.trans hth')
    exact not_interpreting hcurrent hth hframes hrest h
  · rename_i b t h
    obtain ⟨rfl, rfl, hne, -, -⟩ := interpreting?_some hcurrent hth hframes
      (fun fr _ => Nat.zero_le fr.base) h
    obtain ⟨pc, hu, th₁, hth₁, hjump, -, -, -, hstatus, -⟩ := s.confined hcurrent hth
    obtain rfl | ⟨init, fr, rfl⟩ := List.eq_nil_or_concat' rest
    · contradiction
    rw [hframes, ← List.append_assoc, jump_concat, List.append_assoc] at hjump
    refine hnext (hu.current.trans hcurrent) hth₁ (hstatus.trans hrunning) hjump
      (fun fr' hfr' => ?_) hr hth'
    rcases List.mem_append.mp hfr' with hfr' | hfr'
    · exact (hrest fr' (List.mem_append_left _ hfr')).mono hu
    · rw [List.mem_singleton.mp hfr']
      -- Only the program counter of the frame is new.
      exact LuaFrame.mono (hrest fr List.mem_concat_self) hu

theorem neat_raise (e : String) : (Lua.raise e).Neat := by
  intro L L' a th th' fs rest hcurrent hth hrunning hframes hrest hr hth'
  unfold Lua.run at hr
  split at hr
  · rename_i h
    cases hr
    obtain rfl := Option.some.inj (hth.symm.trans hth')
    exact not_interpreting hcurrent hth hframes hrest h
  · contradiction

end Lua

/-! ## Every tree of calls -/

theorem Callee.neat_mk {native : Native} {lua : Lua} (hnative : native.Neat)
    (hlua : lua.Neat) : (Callee.mk native lua).program.Neat where
  interpret := by
    intro L L' a th th' fs fr hcurrent hth hrunning hframes hfr hr hth'
    have hdepth : L.frameDepth = fs.length + 1 := by
      rw [State.frameDepth_eq hcurrent hth, hframes, List.length_append,
        List.length_singleton]
    refine hlua hcurrent hth hrunning hframes
      (fun fr' hfr' => by rw [List.mem_singleton.mp hfr']; exact hfr) ?_ hth'
    rw [← hdepth]
    exact hr
  cfunc := fun hw hr hth' => hnative hw hr hth'

mutual

theorem Native.neat : (native : Native) → native.apiFree = true → native.Neat
  | .ret _, _ => fun hw hr hth' => by
      cases hr
      rw [Option.some.inj (hw.thread.symm.trans hth')]
  | .raise _, _ => fun _ hr _ => nomatch hr
  | .step s k, h => Native.neat_step (k.neat h) s
  | .call f args nresults callee k, h =>
      have h := Bool.and_eq_true_iff.mp h
      Native.neat_call callee.contained (callee.neat h.1) (k.neat h.2) f args nresults
  | .luaPcall _ _ _ _ _ _ _ _, h => nomatch h
  | .pcall callee, h => fun hw hr hth' =>
      State.basePcall_frames callee.contained (callee.neat h) hw hr hth'
  | .xpcall callee handler, h =>
      have h := Bool.and_eq_true_iff.mp h
      fun hw hr hth' => State.baseXpcall_frames callee.contained (callee.neat h.1)
        handler.contained (handler.neat h.2) hw hr hth'
  | .resume start goOn again, _ => Native.neat_resume start goOn again

theorem Lua.neat : (lua : Lua) → lua.apiFree = true → lua.Neat
  | .raise e, _ => Lua.neat_raise e
  | .step s k, h => Lua.neat_step (k.neat h) s
  | .call ra nargs nresults e callee k, h =>
      have h := Bool.and_eq_true_iff.mp h
      Lua.neat_call callee.contained (callee.neat h.1) (k.neat h.2) ra nargs nresults e
  | .tailcall ra nargs e callee k, h =>
      have h := Bool.and_eq_true_iff.mp h
      Lua.neat_tailcall callee.contained (callee.neat h.1) (k.neat h.2) ra nargs e
  | .tforcall ra c e callee k, h =>
      have h := Bool.and_eq_true_iff.mp h
      Lua.neat_tforcall callee.contained (callee.neat h.1) (k.neat h.2) ra c e
  | .ret ra nret k, h => Lua.neat_ret (k.neat h) ra nret
  | .invokeMm mm args nout callee k, h =>
      have h := Bool.and_eq_true_iff.mp h
      Lua.neat_invokeMm callee.contained (callee.neat h.1) (k.neat h.2) mm args nout
  | .callMm mm args nout callee k, h =>
      have h := Bool.and_eq_true_iff.mp h
      Lua.neat_callMm callee.contained (callee.neat h.1) (k.neat h.2) mm args nout

theorem Callee.neat :
    (callee : Callee) → callee.apiFree = true → callee.program.Neat
  | .mk native lua, h =>
      have h := Bool.and_eq_true_iff.mp h
      Callee.neat_mk (native.neat h.1) (lua.neat h.2)

end

end Luatier
