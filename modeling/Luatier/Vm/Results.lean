import Luatier.Vm.FramesSpec

/-!
# Where results are placed

A call that wants `n` results returns with the top `n` slots above its
function, unless a frame was left behind.
-/

namespace Luatier

/-- The results are in place, or a frame above `fs` has yet to place them. -/
def Thread.PlacedAt (th : Thread) (funcIdx n : Nat) (fs : List CallFrame) : Prop :=
  (th.frames = fs ∧ th.top = funcIdx + n) ∨
  ∃ e more, th.frames = fs ++ e :: more ∧
    (e.kind = .cApi ∨ e.base = funcIdx ∧ e.expectedResults = some n)

theorem jump_head {fs more : List CallFrame} {e : CallFrame} {funcIdx n : Nat}
    (pc : Option Nat)
    (hgood : e.kind = .cApi ∨ e.base = funcIdx ∧ e.expectedResults = some n) :
    ∃ e' more', State.jump (fs ++ e :: more) pc = fs ++ e' :: more' ∧
      (e'.kind = .cApi ∨ e'.base = funcIdx ∧ e'.expectedResults = some n) := by
  obtain rfl | ⟨init, fr, rfl⟩ := List.eq_nil_or_concat' more
  · exact ⟨_, [], State.jump_concat fs e pc, hgood⟩
  · refine ⟨e, init ++ [{ fr with savedPc := pc.getD fr.savedPc }], ?_, hgood⟩
    rw [← List.cons_append, ← List.append_assoc, State.jump_concat, List.append_assoc,
      List.cons_append]

/-- The interpreter places the results that the frame it starts on expects. -/
def Program.Placing (program : Program) : Prop :=
  ∀ {L L' : State} {a : Addr} {th th' : Thread} {fs : List CallFrame}
    {fr : CallFrame} {n : Nat}, L.current = some a → L.thread? a = some th →
    th.status = .running → th.frames = fs ++ [fr] → fr.expectedResults = some n →
    program.interpret L = .ok .ok L' → L'.thread? a = some th' →
    th'.PlacedAt fr.base n fs

namespace State

variable {program : Program} {leaks : Leaks} {L L₁ L' : State} {a : Addr}
  {th th' : Thread} {fs : List CallFrame} {n : Nat} {st : Status}

theorem runCCall_placed (hp : program.Contained leaks)
    (hcurrent : L.current = some a) (hth : L.thread? a = some th)
    (hrunning : th.status = .running) {cl : Addr} {funcIdx nargs : Nat}
    {isTailcall : Bool}
    (hr : L.runCCall program a cl funcIdx nargs (some n) isTailcall = .ok .ok L')
    (hth' : L'.thread? a = some th') : th'.PlacedAt funcIdx n th.frames := by
  obtain ⟨nret, L₂, th₂, rest, resAbs, nplaced, -, -, habove, rfl⟩ :=
    runCCall_returns hp hcurrent hth hrunning hr hth'
  obtain ⟨fr, -, hkind, -, -, hdrop⟩ := habove.enterC
  cases rest with
  | nil =>
      refine Or.inl ⟨(Thread.frames_ensureStack _ _).trans ?_, rfl⟩
      rw [hdrop]
      exact List.append_nil _
  | cons fr' rest =>
      exact Or.inr ⟨fr, (fr' :: rest).dropLast,
        (Thread.frames_ensureStack _ _).trans hdrop, Or.inl hkind⟩

theorem callLua_placed (hp : program.Contained leaks) (hq : program.Placing)
    (hcurrent : L.current = some a) (hth : L.thread? a = some th)
    (hrunning : th.status = .running) {cl protoAddr : Addr} {funcIdx nargs : Nat}
    (hr : L.callLua program a cl protoAddr funcIdx nargs (some n) = .ok .ok L')
    (hth' : L'.thread? a = some th') : th'.PlacedAt funcIdx n th.frames := by
  obtain ⟨hu, hth₁⟩ := countCall_spec funcIdx th.frames hth
  unfold callLua at hr
  obtain hincr | ⟨e, hincr⟩ := L.incrCcalls_cases a
  · simp only [hincr] at hr
    obtain ⟨p, -, hpush⟩ | ⟨e, hpush⟩ := pushLuaFrame_cases hth₁ cl protoAddr funcIdx
      nargs (some n) false
    · simp only [hpush] at hr
      obtain ⟨hu₂, th₂, fr, hth₂, habove, hbase, hexpected, -, -, htop₂⟩ := pushed_spec
        th.frames hth₁ cl protoAddr p funcIdx nargs (some n) false
      generalize hL₂ : (L.countCall a).updateThread a
        (·.pushLuaFrame cl protoAddr p funcIdx nargs (some n) false) = L₂
        at hr hu₂ hth₂
      cases hi : program.interpret L₂ with
      | error e L₃ =>
          rw [hi] at hr
          contradiction
      | ok st L₃ =>
          rw [hi] at hr
          cases hr
          have hcurrent₂ := hu₂.current.trans (hu.current.trans hcurrent)
          obtain ⟨hu₃, -, th₃, rest, hth₃, -⟩ := hp.interpret hcurrent₂ hth₂
            (habove.status.trans hrunning) habove.frames (hbase ▸ htop₂)
          rw [hi] at hth₃
          have hplaced := hq hcurrent₂ hth₂ (habove.status.trans hrunning)
            habove.frames hexpected hi hth₃
          obtain rfl := Option.some.inj
            ((thread?_update hth₃ Thread.uncountCall).symm.trans hth')
          rw [hbase] at hplaced
          exact hplaced
    · rw [hpush] at hr
      contradiction
  · rw [hincr] at hr
    contradiction

theorem callClosure_placed (hp : program.Contained leaks) (hq : program.Placing)
    (hcurrent : L.current = some a) (hth : L.thread? a = some th)
    (hrunning : th.status = .running) {cl : Addr} {nargs : Nat}
    (hr : L.callClosure program cl nargs (some n) = .ok .ok L')
    (hth' : L'.thread? a = some th') :
    th'.PlacedAt (th.top - nargs - 1) n th.frames := by
  unfold callClosure at hr
  have hthread : (L.current.bind fun a => (L.thread? a).map (a, ·)) =
      some (a, th) := currentThread?_eq hcurrent hth
  simp only [hthread] at hr
  cases hcl : L.closure? cl with
  | none =>
      rw [hcl] at hr
      contradiction
  | some c =>
      simp only [hcl] at hr
      split at hr
      · contradiction
      · cases hc : c.proto with
        | none =>
            simp only [hc] at hr
            exact runCCall_placed hp hcurrent hth hrunning hr hth'
        | some p =>
            simp only [hc] at hr
            exact callLua_placed hp hq hcurrent hth hrunning hr hth'

theorem callFlat_placed (hp : program.Contained leaks)
    (hcurrent : L.current = some a) (hth : L.thread? a = some th)
    (hrunning : th.status = .running) {f : Addr} {funcIdx nargs : Nat}
    {isTailcall : Bool}
    (hr : L.callFlat program a f funcIdx nargs (some n) isTailcall = .ok .ok L')
    (hth' : L'.thread? a = some th') : th'.PlacedAt funcIdx n th.frames := by
  unfold callFlat at hr
  cases hcl : L.closure? f with
  | none =>
      rw [hcl] at hr
      contradiction
  | some c =>
      cases hc : c.proto with
      | none =>
          simp only [hcl, hc] at hr
          exact runCCall_placed hp hcurrent hth hrunning hr hth'
      | some p =>
          simp only [hcl, hc] at hr
          obtain ⟨p', -, hpush⟩ | ⟨e, hpush⟩ := pushLuaFrame_cases hth f p funcIdx
            nargs (some n) isTailcall
          · obtain ⟨hu, th₁, fr, hth₁, habove, hbase, hexpected, -⟩ :=
              pushed_spec th.frames hth f p p' funcIdx nargs (some n) isTailcall
            rw [hpush] at hr
            cases hr
            obtain rfl := Option.some.inj (hth₁.symm.trans hth')
            exact Or.inr ⟨fr, [], habove.frames, Or.inr ⟨hbase, hexpected⟩⟩
          · rw [hpush] at hr
            contradiction

theorem metaCall_placed (hp : program.Contained leaks) (hq : program.Placing)
    (hcurrent : L.current = some a) (hth : L.thread? a = some th)
    (hrunning : th.status = .running) {funcIdx nargs : Nat} {e : String}
    (htop : th.top = funcIdx + 1 + nargs)
    (hr : L.metaCall program a funcIdx nargs (some n) e = .ok .ok L')
    (hth' : L'.thread? a = some th') : th'.PlacedAt funcIdx n th.frames := by
  unfold metaCall at hr
  obtain ⟨cl, h⟩ | ⟨v, mm, h⟩ | ⟨v, h⟩ := L.metaCallee_cases a funcIdx nargs
  · simp only [h] at hr
    have hplaced := callClosure_placed hp hq hcurrent hth hrunning hr hth'
    rwa [show th.top - nargs - 1 = funcIdx by omega] at hplaced
  · simp only [h] at hr
    have hsame := L.getMetamethod_sameCalls v .call
    generalize (L.getMetamethod v .call).2 = L₁ at hsame hr
    have hth₁ : L₁.thread? a = some th := by rw [hsame.thread?, hth]
    have hcontrol := Thread.SameControl.insertMm th funcIdx nargs mm
    have hplaced := callClosure_placed hp hq
      (current_update (hsame.current.trans hcurrent) (·.insertMm funcIdx nargs mm))
      (thread?_update hth₁ _) (hcontrol.status.trans hrunning) hr hth'
    rwa [hcontrol.frames, show (th.insertMm funcIdx nargs mm).top - (nargs + 1) - 1 =
      funcIdx by rw [Thread.top_insertMm]; omega] at hplaced
  · rw [h] at hr
    contradiction

theorem metaCallOp_placed (hp : program.Contained leaks) (hq : program.Placing)
    (hcurrent : L.current = some a) (hth : L.thread? a = some th)
    (hrunning : th.status = .running) {funcIdx nargs : Nat} {e : String}
    (htop : th.top = funcIdx + 1 + nargs)
    (hr : L.metaCallOp program a funcIdx nargs (some n) e = .ok .ok L')
    (hth' : L'.thread? a = some th') : th'.PlacedAt funcIdx n th.frames := by
  unfold metaCallOp at hr
  have hcall := metaCall_leaves hp hcurrent hth hrunning htop (some n) e
  cases hm : L.metaCall program a funcIdx nargs (some n) e with
  | error e' L₁ =>
      rw [Option.getD_some, hm] at hr
      contradiction
  | ok st L₁ =>
      rw [hm] at hcall
      obtain rfl := hcall.finished st L₁ rfl
      rw [Option.getD_some, hm] at hr
      cases hr
      exact metaCall_placed hp hq hcurrent hth hrunning htop hm hth'

theorem opTailcall_placed (hp : program.Contained leaks) (hq : program.Placing)
    (hcurrent : L.current = some a) (hth : L.thread? a = some th)
    (hrunning : th.status = .running) (hbase : th.base ≤ L.liveRegsTop th)
    {fr : CallFrame} (hframes : th.frames = fs ++ [fr])
    (hexpected : fr.expectedResults = some n) {ra nargs : Nat} {e : String}
    (hr : L.opTailcall program a th ra nargs e = .ok .ok L')
    (hth' : L'.thread? a = some th') : th'.PlacedAt fr.base n fs := by
  have hlast : th.frames.getLast? = some fr := by
    rw [hframes, List.getLast?_concat]
  have hfr : th.base = fr.base := by
    rw [Thread.base, hlast]
    rfl
  obtain ⟨hu, th₁, hth₁, habove, htop⟩ := slideCall_spec hth hbase ra nargs fs
  have hframes₁ : th₁.frames = fs := by
    rw [habove.frames, List.append_nil, hframes, List.dropLast_concat]
  have hcurrent₁ := hu.current.trans hcurrent
  have hrunning₁ := habove.status.trans hrunning
  have hnresults : (th.frames.getLast?.map (·.expectedResults)).getD none = some n := by
    rw [hlast]
    exact hexpected
  unfold opTailcall at hr
  simp only [hnresults] at hr
  rw [← hfr, ← hframes₁]
  split at hr
  · exact callFlat_placed hp hcurrent₁ hth₁ hrunning₁ hr hth'
  · exact metaCallOp_placed hp hq hcurrent₁ hth₁ hrunning₁ htop hr hth'

end State

def Lua.Placing (lua : Lua) : Prop :=
  ∀ {L L' : State} {a : Addr} {th th' : Thread} {fs : List CallFrame}
    {funcIdx n : Nat}, L.current = some a → L.thread? a = some th →
    th.status = .running → th.PlacedAt funcIdx n fs →
    lua.run (fs.length + 1) L = .ok .ok L' → L'.thread? a = some th' →
    th'.PlacedAt funcIdx n fs

namespace Lua

open State

variable {L L' : State} {a : Addr} {th th' : Thread} {fs : List CallFrame}
  {funcIdx n lim k : Nat} {r : Result Status}

theorem placedAt_running (hplaced : th.PlacedAt funcIdx n fs)
    (hcurrent : L.current = some a) (hth : L.thread? a = some th) {b : Addr}
    {t : Thread} (h : L.interpreting? (fs.length + 1) = some (b, t)) :
    b = a ∧ t = th ∧ th.base ≤ L.liveRegsTop th ∧
    (∃ fr, th.frames.getLast? = some fr ∧ fr.kind = .interpLua) ∧
    ∃ e more, th.frames = fs ++ e :: more ∧
      (e.kind = .cApi ∨ e.base = funcIdx ∧ e.expectedResults = some n) := by
  have hlast : ∃ fr, th.frames.getLast? = some fr ∧ fr.kind = .interpLua := by
    unfold interpreting? at h
    rw [currentThread?_eq hcurrent hth, Option.filter_eq_some_iff] at h
    obtain ⟨hpair, hcond⟩ := h
    obtain ⟨rfl, rfl⟩ := Prod.mk.inj (Option.some.inj hpair)
    simp only [Bool.and_eq_true, Option.any_eq_true, beq_iff_eq] at hcond
    obtain ⟨-, fr, hfr, hkind, -⟩ := hcond
    exact ⟨fr, hfr, hkind⟩
  obtain ⟨hframes, -⟩ | ⟨e, more, hframes, hgood⟩ := hplaced
  · obtain ⟨-, -, hrest, -⟩ := interpreting?_some hcurrent hth
      (hframes.trans (List.append_nil fs).symm) (fun fr _ => Nat.zero_le fr.base) h
    exact absurd rfl hrest
  · obtain ⟨rfl, rfl, -, -, hlive⟩ := interpreting?_some hcurrent hth hframes
      (fun fr _ => Nat.zero_le fr.base) h
    exact ⟨rfl, rfl, hlive, hlast, e, more, hframes, hgood⟩

theorem Placing.after {lua : Lua} (hlua : lua.Placing)
    (hcurrent : L.current = some a) (hrunning : th.status = .running)
    (h : L.LeavesAbove a th lim th.frames k r) {e : CallFrame} {more : List CallFrame}
    (hframes : th.frames = fs ++ e :: more)
    (hgood : e.kind = .cApi ∨ e.base = funcIdx ∧ e.expectedResults = some n)
    (hr : r.andThen (lua.run (fs.length + 1)) = .ok .ok L')
    (hth' : L'.thread? a = some th') : th'.PlacedAt funcIdx n fs := by
  obtain ⟨hu, hfinished, th₁, rest, hth₁, habove, -⟩ := h
  cases r with
  | error e' L₁ => contradiction
  | ok st L₁ =>
      obtain rfl := hfinished st L₁ rfl
      refine hlua (hu.current.trans hcurrent) hth₁ (habove.status.trans hrunning)
        (Or.inr ⟨e, more ++ rest, ?_, hgood⟩) hr hth'
      rw [habove.frames, hframes, List.append_assoc, List.cons_append]

/-- The frame on top is popped, and if it is the first one it places its results. -/
theorem placedAt_popped {th₁ : Thread} {e fr : CallFrame} {more : List CallFrame}
    (hframes : th.frames = fs ++ e :: more)
    (hgood : e.kind = .cApi ∨ e.base = funcIdx ∧ e.expectedResults = some n)
    (hlast : th.frames.getLast? = some fr) (hkind : fr.kind = .interpLua)
    (hframes₁ : th₁.frames = th.frames.dropLast)
    (htop : fr.base = funcIdx → fr.expectedResults = some n →
      th₁.top = funcIdx + n) : th₁.PlacedAt funcIdx n fs := by
  rw [hframes] at hlast hframes₁
  cases more with
  | nil =>
      rw [List.getLast?_concat] at hlast
      obtain rfl := Option.some.inj hlast
      rw [List.dropLast_concat] at hframes₁
      obtain hc | ⟨hbase, hexpected⟩ := hgood
      · rw [hkind] at hc
        contradiction
      · exact Or.inl ⟨hframes₁, htop hbase hexpected⟩
  | cons fr' more =>
      rw [List.dropLast_append_of_ne_nil (List.cons_ne_nil _ _)] at hframes₁
      exact Or.inr ⟨e, (fr' :: more).dropLast, hframes₁, hgood⟩

theorem placing_of_op {lua next : Lua} (hnext : next.Placing)
    {op : Addr → Thread → State → Result Status}
    (hrun : ∀ entryDepth L, lua.run entryDepth L =
      match L.interpreting? entryDepth with
      | none => .ok .ok L
      | some (a, th) => (op a th L).andThen (next.run entryDepth))
    (hop : ∀ {L : State} {a : Addr} {th : Thread}, L.current = some a →
      L.thread? a = some th → th.status = .running →
      ∃ lim k, L.LeavesAbove a th lim th.frames k (op a th L)) : lua.Placing := by
  intro L L' a th th' fs funcIdx n hcurrent hth hrunning hplaced hr hth'
  rw [hrun] at hr
  split at hr
  · cases hr
    obtain rfl := Option.some.inj (hth.symm.trans hth')
    exact hplaced
  · rename_i b t h
    obtain ⟨rfl, rfl, -, -, f, more, hframes, hgood⟩ :=
      placedAt_running hplaced hcurrent hth h
    obtain ⟨lim, k, hleaves⟩ := hop hcurrent hth hrunning
    exact hnext.after hcurrent hrunning hleaves hframes hgood hr hth'

theorem placing_raise (e : String) : (Lua.raise e).Placing := by
  intro L L' a th th' fs funcIdx n hcurrent hth hrunning hplaced hr hth'
  unfold Lua.run at hr
  split at hr
  · cases hr
    obtain rfl := Option.some.inj (hth.symm.trans hth')
    exact hplaced
  · contradiction

theorem placing_step {next : Lua} (hnext : next.Placing) (s : LuaStep) :
    (Lua.step s next).Placing := by
  intro L L' a th th' fs funcIdx n hcurrent hth hrunning hplaced hr hth'
  unfold Lua.run at hr
  split at hr
  · cases hr
    obtain rfl := Option.some.inj (hth.symm.trans hth')
    exact hplaced
  · rename_i p h
    obtain ⟨rfl, rfl, -, -, f, more, hframes, hgood⟩ :=
      placedAt_running hplaced hcurrent hth h
    obtain ⟨pc, hu, th₁, hth₁, hjump, -, -, -, hstatus, -⟩ := s.confined hcurrent hth
    refine hnext (hu.current.trans hcurrent) hth₁ (hstatus.trans hrunning)
      (Or.inr ?_) hr hth'
    rw [hjump, hframes]
    exact jump_head pc hgood

theorem placing_ret {next : Lua} (hnext : next.Placing) (ra nret : Nat) :
    (Lua.ret ra nret next).Placing := by
  intro L L' a th th' fs funcIdx n hcurrent hth hrunning hplaced hr hth'
  unfold Lua.run at hr
  split at hr
  · cases hr
    obtain rfl := Option.some.inj (hth.symm.trans hth')
    exact hplaced
  · rename_i b t h
    obtain ⟨rfl, rfl, -, ⟨fr, hlast, hkind⟩, f, more, hframes, hgood⟩ :=
      placedAt_running hplaced hcurrent hth h
    obtain ⟨hu, th₁, hth₁, habove, htop⟩ := opReturn_spec hth ra nret []
    refine hnext (hu.current.trans hcurrent) hth₁ (habove.status.trans hrunning)
      ?_ hr hth'
    exact placedAt_popped hframes hgood hlast hkind
      (habove.frames.trans (List.append_nil _)) fun hbase hexpected => by
        rw [htop, hlast, Thread.base, hlast]
        simp only [Option.map_some, Option.getD_some, hbase, hexpected]

theorem placing_tailcall {callee : Callee} {next : Lua}
    (hp : callee.program.Contained callee.leaks) (hq : callee.program.Placing)
    (hnext : next.Placing) (ra nargs : Nat) (e : String) :
    (Lua.tailcall ra nargs e callee next).Placing := by
  intro L L' a th th' fs funcIdx n hcurrent hth hrunning hplaced hr hth'
  unfold Lua.run at hr
  split at hr
  · cases hr
    obtain rfl := Option.some.inj (hth.symm.trans hth')
    exact hplaced
  · rename_i b t h
    obtain ⟨rfl, rfl, hlive, ⟨fr, hlast, hkind⟩, f, more, hframes, hgood⟩ :=
      placedAt_running hplaced hcurrent hth h
    have hleaves := opTailcall_leaves hp hcurrent hth hrunning hlive ra nargs e
    cases hop : L.opTailcall callee.program b t ra nargs e with
    | error e' L₁ =>
        rw [hop] at hr
        contradiction
    | ok st L₁ =>
        rw [hop] at hr hleaves
        obtain ⟨hu, hfinished, th₁, rest, hth₁, habove, -⟩ := hleaves
        obtain rfl := hfinished st L₁ rfl
        refine hnext (hu.current.trans hcurrent) hth₁ (habove.status.trans hrunning)
          ?_ hr hth'
        cases more with
        | nil =>
            rw [hframes, List.getLast?_concat] at hlast
            obtain rfl := Option.some.inj hlast
            obtain hc | ⟨hbase, hexpected⟩ := hgood
            · rw [hkind] at hc
              contradiction
            · rw [← hbase]
              exact opTailcall_placed hp hq hcurrent hth hrunning hlive hframes
                hexpected hop hth₁
        | cons fr' more =>
            refine Or.inr ⟨f, (fr' :: more).dropLast ++ rest, ?_, hgood⟩
            rw [habove.frames, hframes,
              List.dropLast_append_of_ne_nil (List.cons_ne_nil _ _), List.append_assoc]
            rfl

end Lua

mutual

theorem Lua.placing : (lua : Lua) → lua.Placing
  | .raise e => Lua.placing_raise e
  | .step s k => Lua.placing_step k.placing s
  | .call ra nargs nresults e callee k =>
      Lua.placing_of_op k.placing (fun _ _ => rfl)
        fun hcurrent hth hrunning =>
          ⟨_, _, State.opCall_leaves callee.contained hcurrent hth hrunning ra nargs nresults e⟩
  | .tailcall ra nargs e callee k =>
      Lua.placing_tailcall callee.contained callee.placing k.placing ra nargs e
  | .tforcall ra c e callee k =>
      Lua.placing_of_op k.placing (fun _ _ => rfl)
        fun hcurrent hth hrunning =>
          ⟨_, _, State.opTforcall_leaves callee.contained hcurrent hth hrunning ra c e⟩
  | .ret ra nret k => Lua.placing_ret k.placing ra nret
  | .invokeMm mm args nout callee k =>
      Lua.placing_of_op k.placing (fun _ _ => rfl)
        fun hcurrent hth hrunning => ⟨0, _, State.invokeMm_leaves callee.contained hcurrent hth
          hrunning (List.append_nil _).symm (fun _ hfr => absurd hfr List.not_mem_nil)
          (Nat.zero_le _) (Nat.zero_le _) mm args nout⟩
  | .callMm mm args nout callee k =>
      Lua.placing_of_op k.placing (fun _ _ => rfl)
        fun hcurrent hth hrunning => ⟨0, _, State.callMm_leaves callee.contained hcurrent hth
          hrunning (List.append_nil _).symm (fun _ hfr => absurd hfr List.not_mem_nil)
          (Nat.zero_le _) (Nat.zero_le _) mm args nout⟩

theorem Callee.placing : (callee : Callee) → callee.program.Placing
  | .mk native lua => by
      intro hcurrent hth hrunning hframes hexpected hr hth'
      refine lua.placing hcurrent hth hrunning
        (Or.inr ⟨_, [], hframes, Or.inr ⟨rfl, hexpected⟩⟩) ?_ hth'
      have hdepth := State.frameDepth_eq hcurrent hth
      rw [hframes, List.length_append, List.length_singleton] at hdepth
      rw [← hdepth]
      exact hr

end

end Luatier
