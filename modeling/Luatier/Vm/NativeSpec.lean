import Luatier.Vm.ProtectedSpec

/-!
# What native code leaves alone

`lua_pcall` and `coroutine.resume` keep to the window of the function that
calls them; with them every tree of calls keeps the contract.
-/

namespace Luatier

namespace State

variable {program handler : Program} {leaks hleaks : Leaks} {L L₁ L₂ : State}
  {a : Addr} {th th₁ : Thread} {lim k : Nat}
  {fs : List CallFrame} {r : Result Status}

/-! ## `lua_pcall` in a native function -/

theorem KeepsWindow.step (hw : L.InWindow a th)
    (h : L.KeepsWindow a th 0 L₁)
    (h' : ∀ th₁, L₁.InWindow a th₁ → L₁.KeepsWindow a th₁ k L₂) :
    L.KeepsWindow a th k L₂ :=
  Nat.zero_add k ▸ h.trans hw fun th₁ hw₁ _ => h' th₁ hw₁

theorem InWindow.takeErrorObject (hw : L.InWindow a th) (e : String) :
    L.KeepsWindow a th 0 (L.takeErrorObject e).after := by
  obtain ⟨hu, th₁, hth₁, hcontrol, htop⟩ :=
    takeErrorObject_spec hw.current hw.thread e th.stackBase th.frames
  exact updated_keeps hu hth₁ hcontrol (hw.top.trans_eq htop.symm)

theorem InWindow.intern (hw : L.InWindow a th) (s : String) :
    L.KeepsWindow a th 0 (L.intern s).after := by
  have hsame := L.intern_sameCalls s
  exact updated_keeps (.of_sameCalls hsame) (by rw [hsame.thread?, hw.thread])
    (.refl th) hw.top

theorem InWindow.callClosure (hp : program.Contained leaks)
    (hw : L.InWindow a th) (cl : Addr) {nargs : Nat} (nresults : Wanted)
    (htop : th.stackBase + nargs + 1 ≤ th.top) :
    L.KeepsWindow a th (leaks.callClosure L cl nargs nresults)
      (L.callClosure program cl nargs nresults).after :=
  (callClosure_leaves hp hw.current hw.thread hw.running cl nargs nresults).keeps
    (by omega)

theorem after_bindOk {α β : Type} (r : Result α) (v : α → β) :
    (r.bind fun x L => .ok (v x) L).after = r.after := by
  cases r <;> rfl

theorem apiCall_keeps (hp : program.Contained leaks) (hw : L.InWindow a th)
    (funcIdx : Int) {nargs : Nat} (nresults : Wanted)
    (htop : th.stackBase + nargs + 1 ≤ th.top) :
    L.KeepsWindow a th (leaks.apiCall L funcIdx nargs nresults)
      (L.apiCall program funcIdx nargs nresults).after := by
  unfold State.apiCall Leaks.apiCall
  cases L.at? funcIdx with
  | none => exact hw.keeps
  | some v =>
      cases v with
      | function cl =>
          simp only [after_bindOk]
          exact hw.callClosure hp cl nresults htop
      | _ =>
          refine (hw.settop (funcIdx - 1)).step hw fun th₁ hw₁ => ?_
          have hintern := hw₁.intern "pcall: not a function"
          cases hi : (L.settop (funcIdx - 1)).intern "pcall: not a function" with
          | error e L₁ =>
              rw [hi] at hintern
              exact hintern
          | ok s L₁ =>
              rw [hi] at hintern
              exact hintern.step hw₁ fun th₂ hw₂ => hw₂.push _

theorem InWindow.callHandler (hh : handler.Contained hleaks)
    (hw : L.InWindow a th) (mem : Storage) (mh : Addr) (emsg : TValue) :
    L.KeepsWindow a th
      (hleaks.callClosure (L.placeHandler mem mh emsg) (L.placedHandler mem mh emsg) 1
        (some 1))
      ((L.placeHandler mem mh emsg).callClosure handler (L.placedHandler mem mh emsg) 1
        (some 1)).after := by
  generalize L.placedHandler mem mh emsg = cl
  unfold placeHandler
  generalize L.readHandler mem mh = v
  have htop : ((th.push v).push emsg).top = th.top + 2 := rfl
  have hth₁ : (L.push v).thread? a = some (th.push v) := by
    rw [State.push, withCurrent_eq hw.current]
    exact thread?_update hw.thread _
  refine (hw.push v).step hw fun th₁ hw₁ => ?_
  obtain rfl : th.push v = th₁ := Option.some.inj (hth₁.symm.trans hw₁.thread)
  have hth₂ : ((L.push v).push emsg).thread? a = some ((th.push v).push emsg) := by
    rw [State.push, withCurrent_eq hw₁.current]
    exact thread?_update hw₁.thread _
  refine (hw₁.push emsg).step hw₁ fun th₂ hw₂ => ?_
  obtain rfl : (th.push v).push emsg = th₂ :=
    Option.some.inj (hth₂.symm.trans hw₂.thread)
  refine hw₂.callClosure hh cl (some 1) ?_
  have hbase := hw.top
  rw [htop, Thread.stackBase_push, Thread.stackBase_push]
  omega

theorem apiCatch_keeps (hh : handler.Contained hleaks) (hw : L.InWindow a th)
    (mem : Storage) (funcIdx errfunc : Int) (e : String) :
    L.KeepsWindow a th (hleaks.apiCatch mem L funcIdx errfunc e)
      (L.apiCatch handler mem funcIdx errfunc e).after := by
  unfold State.apiCatch Leaks.apiCatch
  have htake := hw.takeErrorObject e
  cases ht : L.takeErrorObject e with
  | error e' L₁ =>
      rw [ht] at htake
      exact htake
  | ok emsg L₁ =>
      rw [ht, Result.after_ok] at htake
      refine htake.step hw fun th₁ hw₁ => ?_
      refine (hw₁.settop (funcIdx - 1)).step hw₁ fun th₂ hw₂ => ?_
      simp only [Result.bind]
      split
      · cases (L₁.settop (funcIdx - 1)).at? errfunc with
        | none => exact hw₂.keeps
        | some v =>
            cases v with
            | function mh =>
                have hcall := hw₂.callHandler hh mem mh emsg
                simp only
                cases hr : ((L₁.settop (funcIdx - 1)).placeHandler mem mh emsg).callClosure
                    handler ((L₁.settop (funcIdx - 1)).placedHandler mem mh emsg) 1
                    (some 1) with
                | ok s L₂ =>
                    rw [hr] at hcall
                    exact hcall
                | error e₂ L₂ =>
                    rw [hr, Result.after_error] at hcall
                    rw [← Nat.add_zero (hleaks.callClosure _ _ _ _)]
                    refine hcall.trans hw₂ fun th₃ hw₃ _ => ?_
                    have htake₃ := hw₃.takeErrorObject e₂
                    simp only
                    cases ht₃ : L₂.takeErrorObject e₂ with
                    | error e₃ L₃ =>
                        rw [ht₃] at htake₃
                        exact htake₃
                    | ok emsg₃ L₃ =>
                        rw [ht₃, Result.after_ok] at htake₃
                        refine htake₃.step hw₃ fun th₄ hw₄ => ?_
                        refine (hw₄.settop _).step hw₄ fun th₅ hw₅ => hw₅.push _
            | _ => exact hw₂.push _
      · exact hw₂.push _

theorem luaPcall_keeps (hp : program.Contained leaks)
    (hh : handler.Contained hleaks) (hw : L.InWindow a th) (mem : Storage) {nargs : Nat}
    (nresults : Wanted) (errfunc : Int) (htop : th.stackBase + nargs + 1 ≤ th.top) :
    L.KeepsWindow a th (leaks.luaPcall program hleaks mem L nargs nresults errfunc)
      (L.luaPcall program handler mem nargs nresults errfunc).after := by
  unfold State.luaPcall Leaks.luaPcall
  simp only
  have hcall := apiCall_keeps hp hw (L.gettop - nargs) nresults htop
  cases hr : L.apiCall program (L.gettop - nargs) nargs nresults with
  | ok st L₁ =>
      rw [hr] at hcall
      exact hcall
  | error e L₁ =>
      rw [hr] at hcall
      exact hcall.trans hw fun th₁ hw₁ _ =>
        apiCatch_keeps hh hw₁ mem (L.gettop - nargs) errfunc e

/-! ## `coroutine.resume` in a native function -/

namespace Elsewhere

variable {co b : Addr}

theorem trans (h₁ : Elsewhere co L L₁) (h₂ : Elsewhere co L₁ L₂) :
    Elsewhere co L L₂ where
  current := h₂.current.trans h₁.current
  main := h₂.main.trans h₁.main
  pending h := h₂.pending (h₁.pending h)
  protos p hp := h₂.protos p (h₁.protos p hp)
  others b hb hrun := by
    have h := h₁.others b hb hrun
    exact h.trans (h₂.others b hb (h.running hrun))

theorem of_untouched (lim : Nat) (fs : List CallFrame)
    (h : Untouched co lim fs L L₁) : Elsewhere co L L₁ :=
  ⟨h.current, h.main, h.pending, h.protos, h.others⟩

theorem updateThread (co : Addr) (L : State) (f : Thread → Thread) :
    Elsewhere co L (L.updateThread co f) :=
  of_untouched 0 [] (Untouched.updateThread L f fun _ _ hi =>
    absurd hi (Nat.not_lt_zero _))

end Elsewhere

theorem Elsewhere.resumed (hw : L.InWindow a th) {co : Addr}
    (hco : ¬ L.Running co) (h : Elsewhere co (L.withCurrentThread co) L₁) :
    L.KeepsWindow a th 0 (L₁.withCurrentThread a) := by
  have hne : ∀ b, L.Running b → b ≠ co := by
    rintro b hb rfl
    exact hco hb
  -- Which thread is the current one is nothing to a thread that waits.
  have hidle : ∀ b, L.Running b → Idle b L (L₁.withCurrentThread a) := fun b hb =>
    ⟨(h.others b (hne b hb) hb).captured, (h.others b (hne b hb) hb).thread⟩
  have hself := hidle a ⟨th, hw.thread, hw.running⟩
  obtain ⟨hwindows, th', hth', hframes, htop, hbase, hnny, hcalls, hstatus, hslots⟩ :=
    hself.thread hw.thread
  have hu : Untouched a th.stackBase th.frames L (L₁.withCurrentThread a) :=
    { current := hw.current.symm
      main := h.main
      pending := h.pending
      captured := fun i _ hi => hself.captured i hi
      windows := hwindows
      protos := h.protos
      slots := by
        intro t ht
        obtain rfl : th = t := Option.some.inj (hw.thread.symm.trans ht)
        exact ⟨th', hth', fun i _ hfree => hslots i hfree⟩
      others := fun b _ hb => hidle b hb }
  exact updated_keeps hu hth' ⟨hframes, hbase, hnny, hcalls, hstatus⟩
    (hw.top.trans_eq htop.symm)

theorem returnOk_keeps (hw : L.InWindow a th)
    (h : L.KeepsWindow a th k (L₁.withCurrentThread a)) (results : List TValue) :
    L.KeepsWindow a th k (L₁.returnOk a results).after :=
  h.trans hw fun _ hw₁ _ => hw₁.setWindow _

theorem returnErr_keeps (hw : L.InWindow a th)
    (h : L.KeepsWindow a th 0 (L₁.withCurrentThread a)) (msg : String) :
    L.KeepsWindow a th 0 (L₁.returnErr a msg).after := by
  refine h.step hw fun th₁ hw₁ => ?_
  unfold returnErr
  have hintern := hw₁.intern msg
  cases hi : (L₁.withCurrentThread a).intern msg with
  | error e L₂ =>
      rw [hi] at hintern
      exact hintern
  | ok s L₂ =>
      rw [hi, Result.after_ok] at hintern
      exact hintern.step hw₁ fun th₂ hw₂ => hw₂.setWindow _

theorem KeepsWindow.updateOther (hw : L.InWindow a th) {co : Addr}
    (hco : ¬ L.Running co) (h : L.KeepsWindow a th k L₁)
    (f : Thread → Thread) :
    L.KeepsWindow a th k (L₁.updateThread co f) := by
  have hne : ∀ b, L.Running b → b ≠ co := by
    rintro b hb rfl
    exact hco hb
  have hself : a ≠ co := hne a ⟨th, hw.thread, hw.running⟩
  obtain ⟨hu, th', rest, hth', habove, htop⟩ := h
  have hupdate : ∀ b, b ≠ co → Idle b L₁ (L₁.updateThread co f) := fun b hb =>
    .of_objects (L₁.thread?_updateThread_ne f hb) (proto?_updateThread L₁ co f)
      (closure?_updateThread L₁ co f) (upval?_updateThread L₁ co f)
  have hcaptured : ∀ i, (L₁.updateThread co f).Captured a i → L₁.Captured a i :=
    (hupdate a hself).captured
  refine ⟨{ current := hu.current
            main := hu.main
            pending := hu.pending
            captured := fun i hi h => hu.captured i hi (hcaptured i h)
            windows := fun fr hfr => ?_
            protos := fun p hp => by
              rw [proto?_updateThread]
              exact hu.protos p hp
            slots := ?_
            others := fun b hb hrun =>
              (hu.others b hb hrun).trans (hupdate b (hne b hrun)) },
    th', rest, ?_, habove, htop⟩
  · rw [← hu.windows fr hfr, windowEnd, windowEnd, proto?_updateThread,
      closure?_updateThread]
  · intro t ht
    obtain ⟨t', ht', hslots⟩ := hu.slots ht
    exact ⟨t', (L₁.thread?_updateThread_ne f hself).trans ht', hslots⟩
  · exact (L₁.thread?_updateThread_ne f hself).trans hth'

theorem resumeDone_keeps (hw : L.InWindow a th) {co : Addr}
    (hco : ¬ L.Running co) (h : Elsewhere co (L.withCurrentThread co) L₁)
    (st : Status) : L.KeepsWindow a th 0 (L₁.resumeDone a co st).after := by
  cases st with
  | ok =>
      exact returnOk_keeps hw ((h.trans (.updateThread co L₁ _)).resumed hw hco) _
  | yield =>
      exact returnOk_keeps hw ((h.trans (.updateThread co L₁ _)).resumed hw hco) _

theorem resumeDead_keeps (hw : L.InWindow a th) {co : Addr}
    (hco : ¬ L.Running co) (h : Elsewhere co (L.withCurrentThread co) L₁)
    (e : String) : L.KeepsWindow a th 0 (L₁.resumeDead a co e).after := by
  unfold resumeDead
  have hmade : L.KeepsWindow a th 0
      ((L₁.withCurrentThread a).deadObject co e).after := by
    refine (h.resumed hw hco).step hw fun th₁ hw₁ => ?_
    have hintern := hw₁.intern e
    rw [← after_bindOk _ TValue.string] at hintern
    unfold deadObject
    split
    · split
      · exact hw₁.keeps
      · exact hintern
    · exact hintern
  cases hd : (L₁.withCurrentThread a).deadObject co e with
  | error e' L₂ =>
      rw [hd] at hmade
      exact hmade
  | ok v L₂ =>
      rw [hd, Result.after_ok] at hmade
      have hupdate := hmade.updateOther hw hco fun th =>
        { th with errObjSet := false, status := .dead }
      exact hupdate.step hw fun th₂ hw₂ => hw₂.setWindow _

theorem resumeExit_keeps (hw : L.InWindow a th) {co : Addr}
    (hco : ¬ L.Running co) {goOn : Bool → String → State → Result Status}
    (hgoOn : ∀ ok e {L : State}, L.current = some co →
      Elsewhere co L (goOn ok e L).after)
    (h : Elsewhere co (L.withCurrentThread co) r.after) :
    L.KeepsWindow a th 0
      (Result.unwind (decrCcalls · co) (resumeExit goOn a co r)).after := by
  rw [Result.after_unwind]
  refine KeepsWindow.updateOther hw hco ?_ _
  cases r with
  | ok st L₁ => exact resumeDone_keeps hw hco h st
  | error e L₁ =>
      unfold resumeExit
      simp only
      split
      · have hgo := h.trans (hgoOn false e h.current)
        cases hr : goOn false e L₁ with
        | ok st L₂ =>
            rw [Result.after_error, hr] at hgo
            exact resumeDone_keeps hw hco hgo st
        | error e₂ L₂ =>
            rw [Result.after_error, hr] at hgo
            exact resumeDead_keeps hw hco hgo e₂
      · exact resumeDead_keeps hw hco h e

theorem runCoroutine_elsewhere {co : Addr}
    {start : Addr → Nat → State → Result Status}
    {goOn : Bool → String → State → Result Status}
    (hstart : ∀ cl n {L : State}, L.current = some co →
      Elsewhere co L (start cl n L).after)
    (hgoOn : ∀ ok e {L : State}, L.current = some co →
      Elsewhere co L (goOn ok e L).after)
    (hcurrent : L.current = some co) (th : Thread) (args : List TValue) :
    Elsewhere co L (L.runCoroutine start goOn co th args).after := by
  unfold runCoroutine
  split
  · have hupdate := Elsewhere.updateThread co L (·.startCoroutine args)
    simp only
    split
    · exact hupdate.trans (hstart _ _ (hupdate.current.trans hcurrent))
    · exact hupdate
  · have hupdate := Elsewhere.updateThread co L (·.continueCoroutine args)
    exact hupdate.trans (hgoOn true "" (hupdate.current.trans hcurrent))

theorem coResume_keeps (hw : L.InWindow a th)
    {start : Addr → Nat → State → Result Status}
    {goOn : Bool → String → State → Result Status}
    (hstart : ∀ cl n {co : Addr} {L : State}, L.current = some co →
      Elsewhere co L (start cl n L).after)
    (hgoOn : ∀ ok e {co : Addr} {L : State}, L.current = some co →
      Elsewhere co L (goOn ok e L).after) :
    L.KeepsWindow a th 0 (L.coResume start goOn).after := by
  have hback : L.KeepsWindow a th 0 (L.withCurrentThread a) :=
    updated_keeps (.of_heap hw.current.symm rfl id rfl) hw.thread (.refl th) hw.top
  unfold coResume
  rw [hw.currentThread?]
  simp only
  split
  · rename_i co args hwindow
    cases hco : L.thread? co with
    | none => exact hw.keeps
    | some t =>
        have hnot : t.status ≠ .running → ¬ L.Running co := by
          rintro hstatus ⟨t', ht', hrun⟩
          obtain rfl : t = t' := Option.some.inj (hco.symm.trans ht')
          exact hstatus hrun
        have henter : t.status ≠ .running → L.KeepsWindow a th 0
            (Result.unwind (decrCcalls · co) (resumeExit goOn a co
              (((L.updateThread co ({ · with nCcalls := th.nCcalls + 1 })
                ).withCurrentThread co).runCoroutine start goOn co t args))).after := by
          intro hstatus
          have hcount := Elsewhere.updateThread co (L.withCurrentThread co)
            ({ · with nCcalls := th.nCcalls + 1 })
          exact resumeExit_keeps hw (hnot hstatus) (fun ok e _ h => hgoOn ok e h)
            (hcount.trans (runCoroutine_elsewhere (fun cl n _ h => hstart cl n h)
              (fun ok e _ h => hgoOn ok e h) rfl t args))
        simp only
        split
        all_goals first
          | exact returnErr_keeps hw hback _
          | rename_i hstatus
            split
            · exact returnErr_keeps hw hback _
            · exact henter (by rw [hstatus]; exact ThreadStatus.noConfusion)
  · exact hw.keeps
  · exact hw.keeps

end State

/-! ## Every tree of calls -/

namespace Native

open State

def Contained (native : Native) : Prop :=
  ∀ {L : State} {a : Addr} {th : Thread}, L.InWindow a th →
    L.KeepsWindow a th (native.leaks L) (native.exec L).after

theorem Contained.after {α : Type} {native : Native} (hnative : native.Contained)
    {L : State} {a : Addr} {th : Thread} {k : Nat} (hw : L.InWindow a th) {r : Result α}
    (h : L.KeepsWindow a th k r.after) :
    L.KeepsWindow a th (k + r.leaksAfter native.leaks)
      (r.bind fun _ L => native.exec L).after := by
  cases r with
  | error e L' => exact h
  | ok v L' => exact h.trans hw fun th₁ hw₁ _ => hnative hw₁

theorem pushed_keeps {a : Addr} (vs : List TValue) : ∀ {L : State} {th : Thread},
    L.InWindow a th → L.KeepsWindow a th 0 (vs.foldl State.push L) ∧
      (vs.foldl State.push L).thread? a = some (vs.foldl Thread.push th) := by
  induction vs with
  | nil => exact fun hw => ⟨hw.keeps, hw.thread⟩
  | cons v vs ih =>
      intro L th hw
      have hpush := hw.push v
      have hth₁ : (L.push v).thread? a = some (th.push v) := by
        rw [State.push, withCurrent_eq hw.current]
        exact thread?_update hw.thread _
      obtain ⟨th₁, -, hw₁, -⟩ := hpush.inWindow hw
      obtain rfl : th.push v = th₁ := Option.some.inj (hth₁.symm.trans hw₁.thread)
      obtain ⟨hkeeps, hth₂⟩ := ih hw₁
      refine ⟨hpush.step hw fun th₂ hw₂ => ?_, hth₂⟩
      obtain rfl : th.push v = th₂ := Option.some.inj (hth₁.symm.trans hw₂.thread)
      exact hkeeps

theorem pushed_call {L : State} {a : Addr} {th : Thread} {k : Nat}
    (hw : L.InWindow a th) (v : TValue)
    (args : List TValue) {L' : State}
    (h : ∀ th₁, ((v :: args).foldl State.push L).InWindow a th₁ →
      th₁.stackBase + args.length + 1 ≤ th₁.top →
      ((v :: args).foldl State.push L).KeepsWindow a th₁ k L') :
    L.KeepsWindow a th k L' := by
  obtain ⟨hkeeps, hth⟩ := pushed_keeps (v :: args) hw
  refine hkeeps.step hw fun th₁ hw₁ => h th₁ hw₁ ?_
  obtain rfl := Option.some.inj (hth.symm.trans hw₁.thread)
  obtain ⟨hcontrol, htop, -⟩ := Thread.push_fold (v :: args) th
  have hbase := hw.top
  rw [htop, hcontrol.stackBase, List.length_cons]
  omega

theorem contained_call {callee : Callee} {native : Native}
    (hp : callee.program.Contained callee.leaks) (hnative : native.Contained)
    (f : Addr) (args : List TValue) (nresults : Wanted) :
    (Native.call f args nresults callee native).Contained := by
  intro L a th hw
  refine pushed_call hw (.function f) args fun th₁ hw₁ htop => ?_
  exact hnative.after hw₁ (hw₁.callClosure hp f nresults htop)

theorem contained_luaPcall {callee handler : Callee} {native : Native}
    (hp : callee.program.Contained callee.leaks)
    (hh : handler.program.Contained handler.leaks) (hnative : native.Contained)
    (f : TValue) (args : List TValue) (nresults : Wanted) (errfunc : Int)
    (mem : Storage) :
    (Native.luaPcall f args nresults errfunc mem callee handler native).Contained := by
  intro L a th hw
  refine pushed_call hw f args fun th₁ hw₁ htop => ?_
  exact hnative.after hw₁ (luaPcall_keeps hp hh hw₁ mem nresults errfunc htop)

theorem contained_step {native : Native} (hnative : native.Contained)
    (s : NativeStep) : (Native.step s native).Contained := by
  intro L a th hw
  obtain ⟨hu, th₁, hth₁, hframes, hbase, hnny, hcalls, hstatus, htop⟩ :=
    s.confined hw.current hw.thread
  have hstep : L.KeepsWindow a th 0 (s.run L) :=
    updated_keeps hu hth₁ ⟨hframes, hbase, hnny, hcalls, hstatus⟩
      ((Nat.le_min.mpr ⟨Nat.le_refl _, hw.top⟩).trans htop)
  exact hstep.step hw fun th₂ hw₂ => hnative hw₂

theorem contained_resume (start goOn again : CoroutineRun) :
    (Native.resume start goOn again).Contained := by
  intro L a th hw
  refine coResume_keeps hw (fun _ _ _ _ h => start.elsewhere h) fun ok _ _ _ h => ?_
  cases ok with
  | true => exact goOn.elsewhere h
  | false => exact again.elsewhere h

end Native

theorem Callee.contained_mk {native : Native} {lua : Lua}
    (hnative : native.Contained) (hlua : lua.Contained) :
    (Callee.mk native lua).program.Contained (Callee.mk native lua).leaks where
  interpret := by
    intro L a th fs fr hcurrent hth hrunning hframes htop
    have hdepth : L.frameDepth = fs.length + 1 := by
      rw [State.frameDepth_eq hcurrent hth, hframes, List.length_append,
        List.length_singleton]
    have h := hlua hcurrent hth hrunning hframes
      (fun fr' hfr' => by rw [List.mem_singleton.mp hfr']) htop
    rw [← hdepth] at h
    exact h
  cfunc := by
    intro f L a th hcurrent hth hrunning htop
    exact hnative ⟨hcurrent, hth, hrunning, htop⟩

mutual

theorem Native.contained : (native : Native) → native.Contained
  | .ret _ => fun hw => hw.keeps
  | .raise _ => fun hw => hw.keeps
  | .step s k => Native.contained_step k.contained s
  | .call f args nresults callee k =>
      Native.contained_call callee.contained k.contained f args nresults
  | .luaPcall f args nresults errfunc mem callee handler k =>
      Native.contained_luaPcall callee.contained handler.contained k.contained f args
        nresults errfunc mem
  | .pcall callee => fun hw => (State.basePcall_spec callee.contained hw).1
  | .xpcall callee handler => fun hw =>
      (State.baseXpcall_spec callee.contained handler.contained hw).1
  | .resume start goOn again => Native.contained_resume start goOn again

theorem Lua.contained : (lua : Lua) → lua.Contained
  | .raise e => Lua.contained_raise e
  | .step s k => Lua.contained_step k.contained s
  | .call ra nargs nresults e callee k =>
      Lua.contained_call callee.contained k.contained ra nargs nresults e
  | .tailcall ra nargs e callee k =>
      Lua.contained_tailcall callee.contained k.contained ra nargs e
  | .tforcall ra c e callee k =>
      Lua.contained_tforcall callee.contained k.contained ra c e
  | .ret ra nret k => Lua.contained_ret k.contained ra nret
  | .invokeMm mm args nout callee k =>
      Lua.contained_invokeMm callee.contained k.contained mm args nout
  | .callMm mm args nout callee k =>
      Lua.contained_callMm callee.contained k.contained mm args nout

theorem Callee.contained :
    (callee : Callee) → callee.program.Contained callee.leaks
  | .mk native lua => Callee.contained_mk native.contained lua.contained

end

end Luatier
