import Luatier.Vm.CodeSpec

/-!
# What protected calls put back

A native function works in the window of its call.  `pcall` and `xpcall` drop
the frames that an error left behind, and have all but the counts of a C stack
overflow as they were.
-/

namespace Luatier

namespace State

structure InWindow (L : State) (a : Addr) (th : Thread) : Prop where
  current : L.current = some a
  thread : L.thread? a = some th
  running : th.status = .running
  top : th.stackBase ≤ th.top

variable {program handler : Program} {leaks hleaks : Leaks} {L L₁ L₂ : State}
  {a : Addr} {th th₁ : Thread} {lim k k₁ k₂ n : Nat}
  {fs rest : List CallFrame} {r : Result Status}

theorem KeepsWindow.inWindow (hw : L.InWindow a th) (h : L.KeepsWindow a th k L₁) :
    ∃ th₁ rest, L₁.InWindow a th₁ ∧ th.Above th.stackBase th.frames k th₁ rest := by
  obtain ⟨hu, th₁, rest, hth₁, habove, htop⟩ := h
  exact ⟨th₁, rest, ⟨hu.current.trans hw.current, hth₁, habove.status.trans hw.running,
    habove.stackBase.trans_le htop⟩, habove⟩

theorem KeepsWindow.trans (hw : L.InWindow a th) (h : L.KeepsWindow a th k₁ L₁)
    (h' : ∀ th₁, L₁.InWindow a th₁ → th₁.stackBase = th.stackBase →
      L₁.KeepsWindow a th₁ k₂ L₂) :
    L.KeepsWindow a th (k₁ + k₂) L₂ := by
  obtain ⟨th₁, rest₁, hw₁, habove₁⟩ := h.inWindow hw
  obtain ⟨hu', th₂, rest₂, hth₂, habove₂, htop⟩ := h' th₁ hw₁ habove₁.stackBase
  rw [habove₁.stackBase, habove₁.frames] at hu' habove₂
  rw [habove₁.stackBase] at htop
  refine ⟨h.untouched.trans (hu'.mono (Nat.le_refl _) (List.subset_append_left _ _)),
    th₂, rest₁ ++ rest₂, hth₂, ⟨?_, fun fr hfr => ?_,
      habove₂.stackBase.trans habove₁.stackBase, habove₂.nny.trans habove₁.nny, ?_,
      habove₂.status.trans habove₁.status⟩, htop⟩
  · rw [habove₂.frames, List.append_assoc]
  · exact (List.mem_append.mp hfr).elim (habove₁.bases fr) (habove₂.bases fr)
  · rw [habove₂.nCcalls, habove₁.nCcalls, leaked_add]

theorem InWindow.keeps (hw : L.InWindow a th) : L.KeepsWindow a th 0 L :=
  ⟨.refl L, th, [], hw.thread, th.above_self _, hw.top⟩

theorem updated_keeps (hu : Untouched a th.stackBase th.frames L L₁)
    (hth₁ : L₁.thread? a = some th₁)
    (hcontrol : th.SameControl th₁) (htop : th.stackBase ≤ th₁.top) :
    L.KeepsWindow a th 0 L₁ :=
  ⟨hu, th₁, [], hth₁, hcontrol.above (List.append_nil _).symm
    fun _ hfr => absurd hfr List.not_mem_nil, htop⟩

theorem entered_inWindow (hcurrent : L.current = some a)
    (hth : L.thread? a = some th) (hrunning : th.status = .running) (cl : Addr)
    (funcIdx nargs : Nat) (isTailcall : Bool) :
    (L.entered a cl funcIdx nargs isTailcall).InWindow a
      (th.countCall.enterC cl funcIdx nargs isTailcall) where
  current := hcurrent
  thread := thread?_enterC (countCall_spec 0 [] hth).2 cl funcIdx nargs isTailcall
  running := hrunning
  top := Nat.le_add_right _ _

theorem runCCall_returns (hp : program.Contained leaks)
    (hcurrent : L.current = some a) (hth : L.thread? a = some th)
    (hrunning : th.status = .running) {cl : Addr} {funcIdx nargs : Nat}
    {nresults : Wanted} {isTailcall : Bool} {th' : Thread}
    (hr : L.runCCall program a cl funcIdx nargs nresults isTailcall = .ok .ok L₁)
    (hth' : L₁.thread? a = some th') :
    ∃ nret L₂ th₂ rest resAbs nplaced,
      program.cfunc cl (L.entered a cl funcIdx nargs isTailcall) = .ok nret L₂ ∧
      L₂.thread? a = some th₂ ∧
      (th.countCall.enterC cl funcIdx nargs isTailcall).Above (funcIdx + 1)
        (th.countCall.enterC cl funcIdx nargs isTailcall).frames
        (leaks.cfunc cl (L.entered a cl funcIdx nargs isTailcall)) th₂ rest ∧
      th' = (th₂.leaveC funcIdx nargs nresults th.stackBase th.top resAbs
        nplaced).uncountCall := by
  obtain ⟨L₃, hfinish, rfl⟩ := runCCall_ok hth hr
  have hw := entered_inWindow hcurrent hth hrunning cl funcIdx nargs isTailcall
  obtain ⟨hu, th₂, rest, hth₂, habove, -⟩ :=
    hp.cfunc (f := cl) hw.current hw.thread hw.running hw.top
  cases hf : program.cfunc cl (L.entered a cl funcIdx nargs isTailcall) with
  | error e L₂ =>
      rw [hf] at hfinish
      contradiction
  | ok nret L₂ =>
      rw [hf] at hfinish hth₂ hu
      have hpending : L₂.yieldPending = false := hu.pending rfl
      simp only [finishC, hpending, Bool.false_eq_true, if_false] at hfinish
      cases hfinish
      obtain rfl := Option.some.inj ((thread?_update (thread?_update hth₂ _)
        Thread.uncountCall).symm.trans hth')
      exact ⟨nret, L₂, th₂, rest, _, _, rfl, hth₂, habove, rfl⟩

theorem LeavesAbove.keeps (h : L.LeavesAbove a th lim th.frames k r)
    (hlim : th.stackBase ≤ lim) : L.KeepsWindow a th k r.after := by
  obtain ⟨hu, -, th', rest, hth', habove, htop⟩ := h
  exact ⟨hu.mono hlim (List.Subset.refl _), th', rest, hth', ⟨habove.frames,
    fun fr hfr => hlim.trans (habove.bases fr hfr), habove.stackBase, habove.nny,
    habove.nCcalls, habove.status⟩, hlim.trans htop⟩

/-! ## The window -/

theorem withCurrent_eq (hcurrent : L.current = some a) (f : Thread → Thread) :
    L.withCurrent f = L.updateThread a f := by
  rw [withCurrent, hcurrent]

theorem currentThread?_eq (hcurrent : L.current = some a)
    (hth : L.thread? a = some th) : L.currentThread? = some (a, th) := by
  rw [currentThread?, hcurrent, Option.bind_some, hth]
  rfl

theorem InWindow.currentThread? (hw : L.InWindow a th) :
    L.currentThread? = some (a, th) := currentThread?_eq hw.current hw.thread

theorem InWindow.withCurrent (hw : L.InWindow a th) (f : Thread → Thread)
    (hslots : ∀ i < th.stackBase, (f th).slot i = th.slot i)
    (hcontrol : th.SameControl (f th)) (htop : th.stackBase ≤ (f th).top) :
    L.KeepsWindow a th 0 (L.withCurrent f) := by
  rw [withCurrent_eq hw.current]
  refine updated_keeps (Untouched.updateThread L f fun {t} ht => ?_)
    (thread?_update hw.thread f) hcontrol htop
  obtain rfl : th = t := Option.some.inj (hw.thread.symm.trans ht)
  exact hslots

theorem InWindow.setWindow (hw : L.InWindow a th) (vs : List TValue) :
    L.KeepsWindow a th 0 (L.setWindow vs) := by
  obtain ⟨hcontrol, htop, hslots⟩ := th.setWindow_spec vs
  exact hw.withCurrent _ hslots hcontrol (by omega)

theorem InWindow.push (hw : L.InWindow a th) (v : TValue) :
    L.KeepsWindow a th 0 (L.push v) :=
  hw.withCurrent _ (fun _ hi => th.slot_push v (Nat.lt_of_lt_of_le hi hw.top))
    (.push th v) (Nat.le_succ_of_le hw.top)

theorem InWindow.settop (hw : L.InWindow a th) (idx : Int) :
    L.KeepsWindow a th 0 (L.settop idx) :=
  hw.withCurrent _
    (fun _ hi => th.slot_setAbsTop (Nat.lt_of_lt_of_le hi (Nat.le_add_right _ _)))
    (.setAbsTop th _) (Nat.le_add_right _ _)

/-! ## Catching an error -/

theorem popFrames_spec (lim : Nat) (fs' : List CallFrame) : ∀ (n : Nat) {L : State}
    {th : Thread} {rest : List CallFrame}, L.thread? a = some th →
    th.frames = fs ++ rest → rest.length = n →
    Untouched a lim fs' L (L.popFrames a n) ∧
    ∃ th', (L.popFrames a n).thread? a = some th' ∧ th.Above lim fs 0 th' [] ∧
      th'.top = th.top := by
  intro n
  induction n with
  | zero =>
      intro L th rest hth hframes hlen
      rw [List.length_eq_zero_iff.mp hlen, List.append_nil] at hframes
      subst hframes
      exact ⟨.refl L, th, hth, th.above_self lim, rfl⟩
  | succ n ih =>
      intro L th rest hth hframes hlen
      obtain rfl | ⟨init, fr, rfl⟩ := List.eq_nil_or_concat' rest
      · contradiction
      rw [← List.append_assoc] at hframes
      have hpop : L.popFrame a = (L.closeUpvals a fr.base).updateThread a
          fun th => { th with frames := th.frames.dropLast } := by
        rw [popFrame, hth, Option.bind_some, hframes, List.getLast?_concat]
      obtain ⟨hu, us, hth₁⟩ := closeUpvals_spec hth fr.base lim fs'
      have hth₂ := thread?_update hth₁ fun th =>
        { th with frames := th.frames.dropLast }
      rw [← hpop] at hth₂
      have hframes₂ : th.frames.dropLast = fs ++ init := by
        rw [hframes, List.dropLast_concat]
      obtain ⟨hu', th', hth', habove, htop⟩ := ih hth₂ hframes₂ (by simpa using hlen)
      refine ⟨?_, th', hth', ⟨habove.frames, habove.bases, habove.stackBase,
        habove.nny, habove.nCcalls, habove.status⟩, htop⟩
      rw [popFrames]
      refine Untouched.trans ?_ hu'
      rw [hpop]
      exact hu.trans (Untouched.updateThread _ _ fun _ _ _ => rfl)

theorem unwindFrames_spec (hcurrent : L.current = some a)
    (hth : L.thread? a = some th) (hframes : th.frames = fs ++ rest) (lim : Nat)
    (fs' : List CallFrame) :
    Untouched a lim fs' L (L.unwindFrames fs.length) ∧
    ∃ th', (L.unwindFrames fs.length).thread? a = some th' ∧
      th.Above lim fs 0 th' [] ∧ th'.top = th.top := by
  rw [unwindFrames, currentThread?_eq hcurrent hth]
  refine popFrames_spec lim fs' _ hth hframes ?_
  rw [hframes, List.length_append]
  omega

theorem takeErrorObject_spec (hcurrent : L.current = some a)
    (hth : L.thread? a = some th) (e : String) (lim : Nat) (fs : List CallFrame) :
    Untouched a lim fs L (L.takeErrorObject e).after ∧
    ∃ th', (L.takeErrorObject e).after.thread? a = some th' ∧
      th.SameControl th' ∧ th'.top = th.top := by
  rw [takeErrorObject, currentThread?_eq hcurrent hth]
  simp only
  split
  · exact ⟨Untouched.updateThread L _ fun _ _ _ => rfl, _, thread?_update hth _,
      ⟨rfl, rfl, rfl, rfl, rfl⟩, rfl⟩
  · have hsame := L.intern_sameCalls e
    have hafter : ((L.intern e).bind fun s L => .ok (TValue.string s) L).after =
        (L.intern e).after := by
      cases L.intern e <;> rfl
    rw [hafter]
    exact ⟨.of_sameCalls hsame, th, by rw [hsame.thread?, hth], .refl th, rfl⟩

/-! ## Protected calls -/

/--
The thread is as before an error, but for `k` calls not counted down and for
`n` frames.
-/
structure Restores (L : State) (a : Addr) (th : Thread) (k n : Nat) (L' : State) :
    Prop where
  untouched : Untouched a th.stackBase th.frames L L'
  thread : ∃ th' rest, L'.thread? a = some th' ∧
    th.Above th.stackBase th.frames k th' rest ∧ rest.length = n ∧
    th.stackBase ≤ th'.top

theorem Restores.keeps (h : L.Restores a th k n L₁) : L.KeepsWindow a th k L₁ := by
  obtain ⟨hu, th', rest, hth', habove, -, htop⟩ := h
  exact ⟨hu, th', rest, hth', habove, htop⟩

theorem Restores.update (h : L.Restores a th k n L₁)
    (hstep : ∀ th₁, L₁.thread? a = some th₁ → th₁.stackBase = th.stackBase →
      th.stackBase ≤ th₁.top → Untouched a th.stackBase th.frames L₁ L₂ ∧
      ∃ th₂, L₂.thread? a = some th₂ ∧ th₁.SameControl th₂ ∧
        th.stackBase ≤ th₂.top) :
    L.Restores a th k n L₂ := by
  obtain ⟨hu, th₁, rest, hth₁, habove, hlen, htop⟩ := h
  obtain ⟨hu', th₂, hth₂, hcontrol, htop₂⟩ := hstep th₁ hth₁ habove.stackBase htop
  exact ⟨hu.trans hu', th₂, rest, hth₂, ⟨hcontrol.frames.trans habove.frames,
    habove.bases, hcontrol.stackBase.trans habove.stackBase,
    hcontrol.nny.trans habove.nny, hcontrol.nCcalls.trans habove.nCcalls,
    hcontrol.status.trans habove.status⟩, hlen, htop₂⟩

theorem Restores.setWindow (h : L.Restores a th k n L₁)
    (hcurrent : L.current = some a) (vs : List TValue) :
    L.Restores a th k n (L₁.setWindow vs) := by
  refine h.update fun th₁ hth₁ hbase htop => ?_
  rw [State.setWindow, withCurrent_eq (h.untouched.current.trans hcurrent)]
  obtain ⟨hcontrol, htop₂, hslots⟩ := th₁.setWindow_spec vs
  rw [hbase] at hslots htop₂
  refine ⟨Untouched.updateThread L₁ _ fun {t} ht => ?_, _, thread?_update hth₁ _,
    hcontrol, by omega⟩
  obtain rfl : th₁ = t := Option.some.inj (hth₁.symm.trans ht)
  exact hslots

theorem LeavesAbove.unwindFrames (hcurrent : L.current = some a)
    (h : L.LeavesAbove a th th.stackBase th.frames k r) :
    L.Restores a th k 0 (r.after.unwindFrames th.frames.length) := by
  obtain ⟨hu, -, th', rest, hth', habove, htop⟩ := h
  obtain ⟨hu', th₂, hth₂, habove₂, htop₂⟩ := unwindFrames_spec
    (hu.current.trans hcurrent) hth' habove.frames th.stackBase th.frames
  exact ⟨hu.trans hu', th₂, [], hth₂, ⟨habove₂.frames, habove₂.bases,
    habove₂.stackBase.trans habove.stackBase, habove₂.nny.trans habove.nny,
    habove₂.nCcalls.trans ((leaked_zero _).trans habove.nCcalls),
    habove₂.status.trans habove.status⟩,
    rfl, htop.trans_eq htop₂.symm⟩

theorem LeavesAbove.catchError (hcurrent : L.current = some a) {e : String}
    (h : L.LeavesAbove a th th.stackBase th.frames k (.error e L₁)) :
    L.Restores a th k 0 (L₁.catchError th.frames.length e).after := by
  have hunwind := h.unwindFrames hcurrent
  refine hunwind.update fun th₁ hth₁ _ htop => ?_
  obtain ⟨hu, th₂, hth₂, hcontrol, htop₂⟩ := takeErrorObject_spec
    (hunwind.untouched.current.trans hcurrent) hth₁ e th.stackBase th.frames
  exact ⟨hu, th₂, hth₂, hcontrol, htop.trans_eq htop₂.symm⟩

theorem LeavesAbove.adjustNny (hcurrent : L.current = some a)
    (h : (L.adjustNny (-1)).LeavesAbove a (th.adjustNny (-1)) lim fs k r) :
    L.LeavesAbove a th lim fs k (r.unwind (·.adjustNny 1)) := by
  obtain ⟨hu, hfinished, th', rest, hth', habove, htop⟩ := h
  rw [State.adjustNny, withCurrent_eq hcurrent] at hu
  have hu₁ : Untouched a lim fs L r.after :=
    Untouched.trans (Untouched.updateThread L (·.adjustNny (-1)) fun _ _ _ => rfl) hu
  have hnny : th'.nny + 1 = th.nny := by
    rw [habove.nny]
    exact Int.neg_add_cancel_right th.nny 1
  have hafter : (r.unwind (·.adjustNny 1)).after =
      r.after.updateThread a (·.adjustNny 1) := by
    rw [Result.after_unwind, State.adjustNny,
      withCurrent_eq (hu₁.current.trans hcurrent)]
  refine hu₁.leaves hth' rest hafter ?_ (fun _ _ => rfl) ⟨habove.frames,
    habove.bases, habove.stackBase, hnny, habove.nCcalls, habove.status⟩ htop
  intro s L' hs
  cases r with
  | error e L₂ => contradiction
  | ok s₁ L₂ =>
      cases hs
      exact hfinished s L₂ rfl

theorem protectedCall_cases (hp : program.Contained leaks)
    (hcurrent : L.current = some a) (hth : L.thread? a = some th)
    (hrunning : th.status = .running) (f : TValue) {nargs : Nat}
    (htop : th.top = th.stackBase + 1 + nargs) :
    (∃ L', L.protectedCall program f nargs = .ok .ok L' ∧
      L.LeavesAbove a th th.stackBase th.frames (leaks.protectedCall L f nargs)
        (.ok .ok (L'.adjustNny 1))) ∨
    ∃ e L', L.protectedCall program f nargs = .error e L' ∧
      L.LeavesAbove a th th.stackBase th.frames (leaks.protectedCall L f nargs)
        (.error e L') := by
  unfold State.protectedCall Leaks.protectedCall
  cases f with
  | function cl =>
      have hth₁ : (L.adjustNny (-1)).thread? a =
          some (th.adjustNny (-1)) := by
        rw [adjustNny, withCurrent_eq hcurrent]
        exact thread?_update hth _
      have hcurrent₁ : (L.adjustNny (-1)).current = some a := by
        rw [adjustNny, withCurrent_eq hcurrent]
        exact hcurrent
      have hcall := (callClosure_leaves hp hcurrent₁ hth₁ hrunning cl nargs
        none)
      rw [show (th.adjustNny (-1)).top - nargs - 1 = th.stackBase by
        simp only [Thread.adjustNny]; omega] at hcall
      have hunwound := hcall.adjustNny hcurrent
      simp only
      cases hr : (L.adjustNny (-1)).callClosure program cl nargs none with
      | ok s L' =>
          rw [hr] at hcall hunwound
          obtain rfl := hcall.finished s L' rfl
          exact Or.inl ⟨L', rfl, hunwound⟩
      | error e L' =>
          rw [hr] at hunwound
          exact Or.inr ⟨e, L'.adjustNny 1, rfl, hunwound⟩
  | _ =>
      exact Or.inr ⟨_, L, rfl, leaves_raise hth (List.append_nil _).symm
        (fun _ hfr => absurd hfr List.not_mem_nil) (by omega) _⟩

/-- The result of a function that failed under protection. -/
def Failed (r : Result Int) : Prop :=
  ∃ n L' emsg, r = .ok n L' ∧ L'.window = [.boolean false, emsg]

theorem not_failed_error {e : String} : ¬ Failed (.error e L) := by
  rintro ⟨_, _, _, hr, -⟩
  cases hr

theorem InWindow.window (hw : L.InWindow a th) : L.window = th.window := by
  rw [State.window, hw.currentThread?]
  rfl

theorem window_setWindow (hcurrent : L.current = some a) (hth : L.thread? a = some th)
    (vs : List TValue) : (L.setWindow vs).window = vs := by
  rw [State.window, setWindow, withCurrent_eq hcurrent, currentThread?_eq
    (current_update hcurrent _) (thread?_update hth _)]
  exact th.window_setWindow vs

theorem protectedCall_window (hp : program.Contained leaks)
    (hw : L.InWindow a th) (f : TValue) (args : List TValue) :
    (∃ L', (L.setWindow (f :: args)).protectedCall program f args.length =
        .ok .ok L' ∧
      L.LeavesAbove a th th.stackBase th.frames
        (leaks.protectedCall (L.setWindow (f :: args)) f args.length)
        (.ok .ok (L'.adjustNny 1))) ∨
    ∃ e L', (L.setWindow (f :: args)).protectedCall program f args.length =
        .error e L' ∧
      L.LeavesAbove a th th.stackBase th.frames
        (leaks.protectedCall (L.setWindow (f :: args)) f args.length)
        (.error e L') := by
  obtain ⟨hcontrol, htop, hslots⟩ := th.setWindow_spec (f :: args)
  have hupdate : L.setWindow (f :: args) =
      L.updateThread a (·.setWindow (f :: args)) := withCurrent_eq hw.current _
  have htop₁ : (th.setWindow (f :: args)).top =
      (th.setWindow (f :: args)).stackBase + 1 + args.length := by
    rw [htop, hcontrol.stackBase, List.length_cons]
    omega
  have hcases := protectedCall_cases (L := L.setWindow (f :: args)) hp
    (hupdate ▸ hw.current) (hupdate ▸ thread?_update hw.thread _)
    (hcontrol.status.trans hw.running) f htop₁
  rw [hcontrol.stackBase, hcontrol.frames] at hcases
  obtain ⟨L', hr, hleaves⟩ | ⟨e, L', hr, hleaves⟩ := hcases
  · rw [hupdate] at hleaves ⊢
    exact Or.inl ⟨L', hupdate ▸ hr, LeavesAbove.afterUpdate _ hw.thread hslots hcontrol hleaves⟩
  · rw [hupdate] at hleaves ⊢
    exact Or.inr ⟨e, L', hupdate ▸ hr, LeavesAbove.afterUpdate _ hw.thread hslots hcontrol hleaves⟩

theorem protectedResults_spec (hw : L.InWindow a th)
    (h : L.LeavesAbove a th th.stackBase th.frames k (.ok .ok (L₁.adjustNny 1))) :
    L.KeepsWindow a th k L₁.protectedResults.after ∧
    ¬ Failed L₁.protectedResults := by
  have hkeeps := h.keeps (Nat.le_refl _)
  obtain ⟨th₁, -, hw₁, -⟩ := hkeeps.inWindow hw
  refine ⟨hkeeps.trans hw fun th₁ hw₁ _ => hw₁.setWindow _, ?_⟩
  rintro ⟨n, L', emsg, hr, hwindow⟩
  cases hr
  have htrue := window_setWindow hw₁.current hw₁.thread
    (.boolean true :: (L₁.adjustNny 1).window)
  cases htrue.symm.trans hwindow

theorem basePcall_spec (hp : program.Contained leaks)
    (hw : L.InWindow a th) :
    L.KeepsWindow a th (leaks.basePcall L) (L.basePcall program).after ∧
    (Failed (L.basePcall program) →
      L.Restores a th (leaks.basePcall L) 0 (L.basePcall program).after) := by
  unfold State.basePcall Leaks.basePcall
  rw [hw.currentThread?, hw.window]
  simp only
  cases hargs : th.window with
  | nil => exact ⟨hw.keeps, fun h => absurd h not_failed_error⟩
  | cons f args =>
      simp only
      obtain ⟨L', hr, hleaves⟩ | ⟨e, L', hr, hleaves⟩ :=
        protectedCall_window hp hw f args
      · rw [hr]
        obtain ⟨hkeeps, hnot⟩ := protectedResults_spec hw hleaves
        exact ⟨hkeeps, fun h => absurd h hnot⟩
      · rw [hr]
        have hcatch := hleaves.catchError hw.current
        simp only
        cases hc : L'.catchError th.frames.length e with
        | error e' L₁ =>
            rw [hc] at hcatch
            exact ⟨hcatch.keeps, fun h => absurd h not_failed_error⟩
        | ok emsg L₁ =>
            rw [hc] at hcatch
            have hrestores := hcatch.setWindow hw.current [.boolean false, emsg]
            exact ⟨hrestores.keeps, fun _ => hrestores⟩

theorem InWindow.callWindow (hp : program.Contained leaks)
    (hw : L.InWindow a th) (f : TValue) (args : List TValue) (cl : Addr)
    (nresults : Wanted) :
    L.LeavesAbove a th th.stackBase th.frames
      (leaks.callClosure (L.setWindow (f :: args)) cl args.length nresults)
      ((L.setWindow (f :: args)).callClosure program cl args.length nresults) := by
  obtain ⟨hcontrol, htop, hslots⟩ := th.setWindow_spec (f :: args)
  have hcall := callClosure_leaves hp
    (current_update hw.current (·.setWindow (f :: args)))
    (thread?_update hw.thread _) (hcontrol.status.trans hw.running) cl args.length
    nresults
  rw [hcontrol.frames, htop, List.length_cons,
    show th.stackBase + (args.length + 1) - args.length - 1 = th.stackBase by omega]
    at hcall
  rw [State.setWindow, withCurrent_eq hw.current]
  exact LeavesAbove.afterUpdate _ hw.thread hslots hcontrol hcall

def handlerFrames (handler : Program) (L : State) (msgh emsg : TValue) : Nat :=
  match msgh with
  | .function cl =>
      match (L.setWindow [msgh, emsg]).callClosure handler cl 1 (some 1) with
      | .ok _ L' => L'.frameDepth - L.frameDepth
      | .error _ _ => 0
  | _ => 0

theorem frameDepth_eq (hcurrent : L.current = some a) (hth : L.thread? a = some th) :
    L.frameDepth = th.frames.length := by
  rw [frameDepth, currentThread?_eq hcurrent hth]
  rfl

theorem callHandler_spec (hp : handler.Contained hleaks)
    (hw : L.InWindow a th) (msgh emsg : TValue) :
    L.Restores a th (hleaks.callHandler L msgh emsg)
      (handlerFrames handler L msgh emsg)
      (L.callHandler handler msgh emsg th.frames.length).after := by
  have hself : L.Restores a th 0 0 L :=
    ⟨.refl L, th, [], hw.thread, th.above_self _, rfl, hw.top⟩
  unfold State.callHandler Leaks.callHandler handlerFrames
  cases msgh with
  | function cl =>
      have hcall := hw.callWindow hp (.function cl) [emsg] cl (some 1)
      simp only
      cases hr : (L.setWindow [.function cl, emsg]).callClosure handler cl 1
        (some 1) with
      | error e L₁ =>
          rw [List.length_singleton, hr] at hcall
          exact (hcall.unwindFrames hw.current).setWindow hw.current _
      | ok s L₁ =>
          rw [List.length_singleton, hr] at hcall
          obtain rfl := hcall.finished s L₁ rfl
          obtain ⟨hu, -, th', rest, hth', habove, htop⟩ := hcall
          have hdepth : L₁.frameDepth - L.frameDepth = rest.length := by
            have hafter : L₁.frameDepth = th'.frames.length :=
              frameDepth_eq (hu.current.trans hw.current) hth'
            rw [hafter, frameDepth_eq hw.current hw.thread, habove.frames,
              List.length_append, Nat.add_sub_cancel_left]
          simp only [hdepth]
          exact Restores.setWindow ⟨hu, th', rest, hth', habove, rfl, htop⟩
            hw.current _
  | _ => exact hself.setWindow hw.current _

theorem Restores.handled (hh : handler.Contained hleaks)
    (hw : L.InWindow a th) (h : L.Restores a th k 0 L₁)
    (msgh emsg : TValue) :
    L.Restores a th (k + hleaks.callHandler L₁ msgh emsg)
      (handlerFrames handler L₁ msgh emsg)
      (L₁.callHandler handler msgh emsg th.frames.length).after := by
  obtain ⟨th₁, -, hw₁, -⟩ := h.keeps.inWindow hw
  obtain ⟨hu, th₁', rest, hth₁, habove, hlen, htop⟩ := h
  obtain rfl : th₁ = th₁' := Option.some.inj (hw₁.thread.symm.trans hth₁)
  obtain rfl := List.length_eq_zero_iff.mp hlen
  have hbase := habove.stackBase
  have hframes : th₁.frames = th.frames := habove.frames.trans (List.append_nil _)
  obtain ⟨hu₂, th₂, rest₂, hth₂, habove₂, hlen₂, htop₂⟩ :=
    callHandler_spec hh hw₁ msgh emsg
  rw [hbase, hframes] at hu₂ habove₂
  rw [hframes] at hth₂
  rw [hbase] at htop₂
  refine ⟨hu.trans hu₂, th₂, rest₂, hth₂, ⟨habove₂.frames, habove₂.bases,
    habove₂.stackBase.trans hbase, habove₂.nny.trans habove.nny, ?_,
    habove₂.status.trans habove.status⟩, hlen₂, htop₂⟩
  rw [habove₂.nCcalls, habove.nCcalls, leaked_add]

def xpcallFrames (program handler : Program) (L : State) : Nat :=
  match L.currentThread? with
  | none => 0
  | some (_, th) =>
      match th.window with
      | f :: msgh :: args =>
          match (L.setWindow (f :: args)).protectedCall program f args.length with
          | .error e L =>
              match L.catchError th.frames.length e with
              | .ok emsg L => handlerFrames handler L msgh emsg
              | .error _ _ => 0
          | .ok _ _ => 0
      | _ => 0

theorem baseXpcall_spec (hp : program.Contained leaks)
    (hh : handler.Contained hleaks) (hw : L.InWindow a th) :
    L.KeepsWindow a th (leaks.baseXpcall program hleaks L)
      (L.baseXpcall program handler).after ∧
    (Failed (L.baseXpcall program handler) →
      L.Restores a th (leaks.baseXpcall program hleaks L)
        (xpcallFrames program handler L) (L.baseXpcall program handler).after) := by
  unfold State.baseXpcall Leaks.baseXpcall xpcallFrames
  rw [hw.currentThread?]
  simp only
  rcases th.window with _ | ⟨f, _ | ⟨msgh, args⟩⟩
  · exact ⟨hw.keeps, fun h => absurd h not_failed_error⟩
  · exact ⟨hw.keeps, fun h => absurd h not_failed_error⟩
  · simp only
    obtain ⟨L', hr, hleaves⟩ | ⟨e, L', hr, hleaves⟩ :=
      protectedCall_window hp hw f args
    · rw [hr]
      obtain ⟨hkeeps, hnot⟩ := protectedResults_spec hw hleaves
      exact ⟨hkeeps, fun h => absurd h hnot⟩
    · rw [hr]
      have hcatch := hleaves.catchError hw.current
      simp only
      cases hc : L'.catchError th.frames.length e with
      | error e' L₁ =>
          rw [hc] at hcatch
          exact ⟨hcatch.keeps, fun h => absurd h not_failed_error⟩
      | ok emsg L₁ =>
          rw [hc] at hcatch
          have hhandled := hcatch.handled hh hw msgh emsg
          exact ⟨hhandled.keeps, fun _ => hhandled⟩

end State

end Luatier
