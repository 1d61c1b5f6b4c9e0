import Luatier.Gc.SweepSpec
import Luatier.Vm.Code

/-!
# What code leaves alone

Whatever a function does, however deep its calls nest and wherever it raises:
the frames and registers below it stay, and every count but that of a C stack
overflow is taken back.
-/

namespace Luatier

namespace Thread

/-- The two threads differ in their stacks, tops and lists of upvalues alone. -/
structure SameControl (th th' : Thread) : Prop where
  frames : th'.frames = th.frames
  stackBase : th'.stackBase = th.stackBase
  nny : th'.nny = th.nny
  nCcalls : th'.nCcalls = th.nCcalls
  status : th'.status = th.status

namespace SameControl

variable {th th₁ th₂ : Thread} {lim k : Nat} {fs rest : List CallFrame}

theorem refl (th : Thread) : th.SameControl th := ⟨rfl, rfl, rfl, rfl, rfl⟩

theorem trans (h₁ : th.SameControl th₁) (h₂ : th₁.SameControl th₂) :
    th.SameControl th₂ :=
  ⟨h₂.frames.trans h₁.frames, h₂.stackBase.trans h₁.stackBase,
    h₂.nny.trans h₁.nny, h₂.nCcalls.trans h₁.nCcalls, h₂.status.trans h₁.status⟩

theorem ensureStack (th : Thread) (n : Nat) : th.SameControl (th.ensureStack n) :=
  ⟨frames_ensureStack _ _, stackBase_ensureStack _ _, nny_ensureStack _ _,
    nCcalls_ensureStack _ _, status_ensureStack _ _⟩

theorem push (th : Thread) (v : TValue) : th.SameControl (th.push v) :=
  (ensureStack th (th.top + 1)).trans ⟨rfl, rfl, rfl, rfl, rfl⟩

theorem openUpvals (h : th.SameControl th₁) (us : List Addr) :
    th.SameControl { th₁ with openUpvals := us } :=
  h.trans ⟨rfl, rfl, rfl, rfl, rfl⟩

theorem setAbsTop (th : Thread) (n : Nat) : th.SameControl (th.setAbsTop n) :=
  (ensureStack th n).trans ⟨rfl, rfl, rfl, rfl, rfl⟩

theorem above (h : th.SameControl th₁) (hframes : th.frames = fs ++ rest)
    (hbases : ∀ fr ∈ rest, lim ≤ fr.base) : th.Above lim fs 0 th₁ rest :=
  ⟨h.frames.trans hframes, hbases, h.stackBase, h.nny, leaks_nothing h.nCcalls, h.status⟩

theorem insertMm (th : Thread) (funcIdx nargs : Nat) (mm : Addr) :
    th.SameControl (th.insertMm funcIdx nargs mm) :=
  (ensureStack th (funcIdx + 2 + nargs)).trans ⟨rfl, rfl, rfl, rfl, rfl⟩

theorem raiseTop (th : Thread) (callBase nargs : Nat) :
    th.SameControl (th.raiseTop callBase nargs) :=
  (ensureStack th (callBase + 1 + nargs + 8)).trans ⟨rfl, rfl, rfl, rfl, rfl⟩

theorem slideUp (th : Thread) (tmp src nargs : Nat) :
    th.SameControl (th.slideUp tmp src nargs) :=
  (ensureStack th (tmp + nargs + 1 + 8)).trans ⟨rfl, rfl, rfl, rfl, rfl⟩

theorem copyIterator (th : Thread) (cb c : Nat) :
    th.SameControl (th.copyIterator cb c) :=
  (ensureStack th (cb + 3 + c)).trans ⟨rfl, rfl, rfl, rfl, rfl⟩

theorem pushMm (th : Thread) (callBase : Nat) (mm : TValue) (args : List TValue)
    (nout : Nat) : th.SameControl (th.pushMm callBase mm args nout) :=
  (ensureStack th (callBase + 1 + args.length + nout + 8)).trans
    ⟨rfl, rfl, rfl, rfl, rfl⟩

end SameControl

variable (th : Thread) {i funcIdx callBase tmp dest cb : Nat}

theorem top_insertMm (funcIdx nargs : Nat) (mm : Addr) :
    (th.insertMm funcIdx nargs mm).top = funcIdx + 2 + nargs := rfl

theorem slot_insertMm (nargs : Nat) (mm : Addr) (h : i < funcIdx) :
    (th.insertMm funcIdx nargs mm).slot i = th.slot i :=
  (slot_setSlot _ _ (by omega)).trans
    ((slot_move _ (by omega)).trans (slot_ensureStack _ _ _))

theorem slot_raiseTop (callBase nargs i : Nat) :
    (th.raiseTop callBase nargs).slot i = th.slot i := slot_ensureStack _ _ _

theorem slot_slideUp (src nargs : Nat) (h : i < tmp) :
    (th.slideUp tmp src nargs).slot i = th.slot i :=
  (slot_move _ h).trans (slot_ensureStack _ _ _)

theorem slot_slideDown (tmp nargs : Nat) (h : i < dest) :
    (th.slideDown dest tmp nargs).slot i = th.slot i :=
  (slot_move _ h).trans (slot_ensureStack _ _ _)

theorem slot_copyIterator (c : Nat) (h : i < cb) :
    (th.copyIterator cb c).slot i = th.slot i :=
  (slot_move _ h).trans (slot_ensureStack _ _ _)

theorem slot_placeResults (src nret placed : Nat) (h : i < dest) :
    (th.placeResults dest src nret placed).slot i = th.slot i :=
  (slot_fillNil _ (by omega)).trans ((slot_move _ h).trans (slot_ensureStack _ _ _))

theorem top_pushMm (callBase : Nat) (mm : TValue) (args : List TValue) (nout : Nat) :
    (th.pushMm callBase mm args nout).top = callBase + 1 + args.length := rfl

theorem slot_pushMm (mm : TValue) (args : List TValue) (nout : Nat)
    (h : i < callBase) : (th.pushMm callBase mm args nout).slot i = th.slot i :=
  (slot_overwrite _ (if_neg (by omega))).trans (slot_ensureStack _ _ _)

variable {th} in
theorem SameControl.above_slideDown {th₁ : Thread} (h : th.SameControl th₁)
    (lim dest tmp nargs : Nat) :
    th.Above lim th.frames.dropLast 0 (th₁.slideDown dest tmp nargs) [] where
  frames := by rw [List.append_nil, ← h.frames]; rfl
  bases _ hfr := absurd hfr List.not_mem_nil
  stackBase := (stackBase_ensureStack _ _).trans h.stackBase
  nny := (nny_ensureStack _ _).trans h.nny
  nCcalls := leaks_nothing ((nCcalls_ensureStack _ _).trans h.nCcalls)
  status := (status_ensureStack _ _).trans h.status

variable {th} in
theorem SameControl.above_placeResults {th₁ : Thread} (h : th.SameControl th₁)
    (lim dest src nret placed : Nat) :
    th.Above lim th.frames.dropLast 0 (th₁.placeResults dest src nret placed) [] where
  frames := by rw [List.append_nil, ← h.frames]; rfl
  bases _ hfr := absurd hfr List.not_mem_nil
  stackBase := (stackBase_ensureStack _ _).trans h.stackBase
  nny := (nny_ensureStack _ _).trans h.nny
  nCcalls := leaks_nothing ((nCcalls_ensureStack _ _).trans h.nCcalls)
  status := (status_ensureStack _ _).trans h.status

theorem push_fold (vs : List TValue) : ∀ th : Thread,
    th.SameControl (vs.foldl push th) ∧ (vs.foldl push th).top = th.top + vs.length ∧
      ∀ i < th.top, (vs.foldl push th).slot i = th.slot i := by
  induction vs with
  | nil => exact fun th => ⟨.refl th, rfl, fun _ _ => rfl⟩
  | cons v vs ih =>
      intro th
      obtain ⟨hcontrol, htop, hslots⟩ := ih (th.push v)
      refine ⟨(SameControl.push th v).trans hcontrol, ?_, fun i hi => ?_⟩
      · rw [List.foldl_cons, htop, top_push, List.length_cons]
        omega
      · exact (hslots i (Nat.lt_succ_of_lt hi)).trans (th.slot_push v hi)

theorem slot_push_self (th : Thread) (v : TValue) :
    (th.push v).slot th.top = v := by
  have hlen : th.top < (th.ensureStack (th.top + 1)).stack.length := by
    unfold ensureStack
    split
    · rw [List.length_append, List.length_replicate]
      omega
    · omega
  simp only [push, slot, setSlot, overwrite, List.getD_eq_getElem?_getD,
    List.getElem?_mapIdx, List.getElem?_eq_getElem hlen, Option.map_some, if_true,
    Option.getD_some]

theorem slot_push_fold (vs : List TValue) : ∀ (th : Thread) (i : Nat)
    (h : i < vs.length), (vs.foldl push th).slot (th.top + i) = vs[i] := by
  induction vs with
  | nil => exact fun _ _ h => absurd h (Nat.not_lt_zero _)
  | cons v vs ih =>
      intro th i h
      cases i with
      | zero =>
          exact ((push_fold vs (th.push v)).2.2 _ (Nat.lt_succ_self _)).trans
            (th.slot_push_self v)
      | succ i =>
          have hi := ih (th.push v) i (Nat.lt_of_succ_lt_succ h)
          rwa [top_push, Nat.add_assoc, Nat.add_comm 1 i] at hi

theorem setWindow_spec (th : Thread) (vs : List TValue) :
    th.SameControl (th.setWindow vs) ∧
      (th.setWindow vs).top = th.stackBase + vs.length ∧
      ∀ i < th.stackBase, (th.setWindow vs).slot i = th.slot i := by
  obtain ⟨hcontrol, htop, hslots⟩ := push_fold vs (th.setAbsTop th.stackBase)
  exact ⟨(SameControl.setAbsTop th _).trans hcontrol, htop,
    fun i hi => (hslots i hi).trans (th.slot_setAbsTop hi)⟩

theorem window_setWindow (th : Thread) (vs : List TValue) :
    (th.setWindow vs).window = vs := by
  obtain ⟨hcontrol, htop, -⟩ := th.setWindow_spec vs
  refine List.ext_getElem ?_ fun i hi hi' => ?_
  · simp only [window, List.length_map, List.length_range, htop,
      hcontrol.stackBase, Nat.add_sub_cancel_left]
  · simp only [window, List.getElem_map, List.getElem_range, hcontrol.stackBase]
    exact slot_push_fold vs (th.setAbsTop th.stackBase) i hi'

end Thread

namespace State

variable {program : Program} {leaks : Leaks} {L L₁ L₂ : State} {a : Addr}
  {th th₁ : Thread} {lim lim' k k₁ k₂ : Nat} {fs rest rest₁ : List CallFrame}
  {r : Result Status}

theorem LeavesAbove.mono (h : L.LeavesAbove a th lim' (fs ++ rest) k r)
    (hlim : lim ≤ lim') (hbases : ∀ fr ∈ rest, lim ≤ fr.base) :
    L.LeavesAbove a th lim fs k r := by
  obtain ⟨hu, hfinished, th', rest', hth', habove, htop⟩ := h
  refine ⟨hu.mono hlim (List.subset_append_left _ _), hfinished, th', rest ++ rest',
    hth', ⟨?_, fun fr hfr => ?_, habove.stackBase, habove.nny, habove.nCcalls,
      habove.status⟩, hlim.trans htop⟩
  · rw [habove.frames, List.append_assoc]
  · rcases List.mem_append.mp hfr with hfr | hfr
    · exact hbases fr hfr
    · exact hlim.trans (habove.bases fr hfr)

theorem LeavesAbove.after (hu : Untouched a lim fs L L₁)
    (habove : th.Above lim fs k₁ th₁ rest₁)
    (h : L₁.LeavesAbove a th₁ lim fs k₂ r) :
    L.LeavesAbove a th lim fs (k₁ + k₂) r := by
  obtain ⟨hu', hfinished, th', rest', hth', habove', htop⟩ := h
  refine ⟨hu.trans hu', hfinished, th', rest', hth', ⟨habove'.frames,
    habove'.bases, habove'.stackBase.trans habove.stackBase,
    habove'.nny.trans habove.nny, ?_, habove'.status.trans habove.status⟩, htop⟩
  rw [habove'.nCcalls, habove.nCcalls, leaked_add]

theorem LeavesAbove.afterAbove (hu : Untouched a lim fs L L₁)
    (habove : th.Above lim fs 0 th₁ rest₁)
    (h : L₁.LeavesAbove a th₁ lim fs k r) : L.LeavesAbove a th lim fs k r := by
  have hleaves := LeavesAbove.after hu habove h
  rwa [Nat.zero_add] at hleaves

theorem LeavesAbove.afterUpdate (f : Thread → Thread)
    (hth : L.thread? a = some th) (hslots : ∀ i < lim, (f th).slot i = th.slot i)
    (hcontrol : th.SameControl (f th))
    (h : (L.updateThread a f).LeavesAbove a (f th) lim fs k r) :
    L.LeavesAbove a th lim fs k r := by
  have hu : Untouched a lim fs L (L.updateThread a f) :=
    Untouched.updateThread L f fun {t} ht => by
      obtain rfl : th = t := Option.some.inj (hth.symm.trans ht)
      exact hslots
  obtain ⟨hu', hfinished, th', rest', hth', habove', htop⟩ := h
  exact ⟨hu.trans hu', hfinished, th', rest', hth', ⟨habove'.frames,
    habove'.bases, habove'.stackBase.trans hcontrol.stackBase,
    habove'.nny.trans hcontrol.nny, habove'.nCcalls.trans (by rw [hcontrol.nCcalls]),
    habove'.status.trans hcontrol.status⟩, htop⟩

theorem LeavesAbove.afterSame (h : L₁.LeavesAbove a th lim fs k r)
    (hsame : SameCalls L L₁) : L.LeavesAbove a th lim fs k r :=
  ⟨(Untouched.of_sameCalls hsame).trans h.untouched, h.finished, h.thread⟩

theorem current_update (hcurrent : L.current = some a) (f : Thread → Thread) :
    (L.updateThread a f).current = some a := hcurrent

theorem LeavesAbove.bindOk (h : L.LeavesAbove a th lim fs k r) :
    L.LeavesAbove a th lim fs k (r.bind fun _ L => .ok .ok L) := by
  cases r with
  | error e L' => exact h
  | ok s L' => exact ⟨h.untouched, fun _ _ h => by cases h; rfl, h.thread⟩

theorem thread?_update (hth : L.thread? a = some th) (f : Thread → Thread) :
    (L.updateThread a f).thread? a = some (f th) := by
  rw [thread?_updateThread, hth]
  rfl

theorem LeavesAbove.bindSetTop (h : L.LeavesAbove a th lim fs k r) {top : Nat}
    (htop : lim ≤ top) :
    L.LeavesAbove a th lim fs k
      (r.bind fun _ L => .ok .ok (L.updateThread a (·.setTop top))) := by
  cases r with
  | error e L' => exact h
  | ok s L' =>
      obtain ⟨hu, -, th', rest', hth', habove, -⟩ := h
      exact hu.leaves hth' rest' rfl (fun _ _ h => by cases h; rfl)
        (fun _ _ => rfl) ⟨habove.frames, habove.bases, habove.stackBase, habove.nny,
          habove.nCcalls, habove.status⟩ htop

theorem jump_concat (init : List CallFrame) (fr : CallFrame) (pc : Option Nat) :
    jump (init ++ [fr]) pc = init ++ [{ fr with savedPc := pc.getD fr.savedPc }] := by
  rw [jump, List.dropLast_concat, List.getLast?_concat]
  rfl

theorem Confined.above {pc : Option Nat}
    (h : Confined a th lim' (jump th.frames pc) L L₁) (hframes : th.frames = fs ++ rest)
    (hbases : ∀ fr ∈ rest, lim ≤ fr.base) (hrest : rest ≠ []) :
    ∃ th₁ rest₁, L₁.thread? a = some th₁ ∧ th.Above lim fs 0 th₁ rest₁ ∧
      min lim' th.top ≤ th₁.top := by
  obtain ⟨-, th₁, hth₁, hframes₁, hbase, hnny, hcalls, hstatus, htop⟩ := h
  obtain rfl | ⟨init, fr, rfl⟩ := List.eq_nil_or_concat' rest
  · contradiction
  rw [hframes, ← List.append_assoc, jump_concat, List.append_assoc] at hframes₁
  refine ⟨th₁, _, hth₁, ⟨hframes₁, fun fr' hfr' => ?_, hbase, hnny,
    leaks_nothing hcalls, hstatus⟩, htop⟩
  rcases List.mem_append.mp hfr' with hfr' | hfr'
  · exact hbases fr' (List.mem_append_left _ hfr')
  · rw [List.mem_singleton.mp hfr']
    exact hbases fr List.mem_concat_self

/-! ## Calls from the interpreter -/

theorem callFlat_leaves (hp : program.Contained leaks)
    (hcurrent : L.current = some a) (hth : L.thread? a = some th)
    (hrunning : th.status = .running) (f : Addr) {funcIdx : Nat} (nargs : Nat)
    (nresults : Wanted) (isTailcall : Bool) (htop : funcIdx ≤ th.top) :
    L.LeavesAbove a th funcIdx th.frames
      (leaks.callFlat L a f funcIdx nargs isTailcall)
      (L.callFlat program a f funcIdx nargs nresults isTailcall) := by
  unfold State.callFlat Leaks.callFlat
  cases L.closure? f with
  | none => exact (Untouched.refl L).raises hth (th.above_self _) htop _
  | some c =>
      cases hc : c.proto with
      | none =>
          simp only [hc]
          exact runCCall_leaves hp hcurrent hth hrunning f nargs nresults
            isTailcall htop
      | some p =>
          simp only [hc]
          obtain ⟨p', -, hpush⟩ | ⟨e, hpush⟩ := pushLuaFrame_cases hth f p funcIdx
            nargs nresults isTailcall
          · obtain ⟨hu, th₁, fr, hth₁, habove, -, -, -, -, htop₁⟩ := pushed_spec th.frames hth f p
              p' funcIdx nargs nresults isTailcall
            rw [hpush]
            exact ⟨hu, fun _ _ h => by cases h; rfl, th₁, [fr], hth₁, habove, htop₁⟩
          · rw [hpush]
            exact (Untouched.refl L).raises hth (th.above_self _) htop e

theorem updateTable_sameCalls (L : State) (b : Addr) (f : Table → Table) :
    SameCalls L (L.updateTable b f) := by
  refine ⟨rfl, rfl, rfl, ?_, ?_, ?_, ?_⟩
  all_goals
    funext c
    simp only [thread?, proto?, closure?, upval?, object?_updateTable]
    by_cases hc : c = b
    · rw [if_pos hc]
      cases L.object? c with
      | none => rfl
      | some o => cases o <;> rfl
    · rw [if_neg hc]

theorem getMetamethod_sameCalls (L : State) (v : TValue) (e : TmEvent) :
    SameCalls L (L.getMetamethod v e).2 := by
  obtain h | ⟨b, -, -, h⟩ := L.getTm_state (L.getMetatable v) e
  · rw [getMetamethod, h]
    exact .refl L
  · rw [getMetamethod, h]
    exact L.updateTable_sameCalls b _

theorem metaCallee_cases (L : State) (a : Addr) (funcIdx nargs : Nat) :
    (∃ cl, L.metaCallee a funcIdx nargs = (some (cl, nargs), L)) ∨
    (∃ v mm, L.metaCallee a funcIdx nargs = (some (mm, nargs + 1),
      (L.getMetamethod v .call).2.updateThread a (·.insertMm funcIdx nargs mm))) ∨
    ∃ v, L.metaCallee a funcIdx nargs = (none, (L.getMetamethod v .call).2) := by
  unfold metaCallee
  split
  · rename_i cl _
    exact Or.inl ⟨cl, rfl⟩
  · split
    · rename_i mm L' h
      refine Or.inr (Or.inl ⟨L.register a funcIdx, mm, ?_⟩)
      rw [h]
    · rename_i v L' _ h
      refine Or.inr (Or.inr ⟨L.register a funcIdx, ?_⟩)
      rw [h]

theorem metaCall_leaves (hp : program.Contained leaks)
    (hcurrent : L.current = some a) (hth : L.thread? a = some th)
    (hrunning : th.status = .running) {funcIdx nargs : Nat}
    (htop : th.top = funcIdx + 1 + nargs) (nresults : Wanted) (e : String) :
    L.LeavesAbove a th funcIdx th.frames
      (leaks.metaCall L a funcIdx nargs nresults)
      (L.metaCall program a funcIdx nargs nresults e) := by
  unfold State.metaCall Leaks.metaCall
  obtain ⟨cl, h⟩ | ⟨v, mm, h⟩ | ⟨v, h⟩ := L.metaCallee_cases a funcIdx nargs
  · rw [h]
    have hcall := callClosure_leaves hp hcurrent hth hrunning cl nargs nresults
    rwa [show th.top - nargs - 1 = funcIdx by omega] at hcall
  · rw [h]
    simp only
    have hsame := L.getMetamethod_sameCalls v .call
    generalize (L.getMetamethod v .call).2 = L₁ at hsame
    have hth₁ : L₁.thread? a = some th := by rw [hsame.thread?, hth]
    have hcontrol := Thread.SameControl.insertMm th funcIdx nargs mm
    have hcall := callClosure_leaves (L := L₁.updateThread a
      (·.insertMm funcIdx nargs mm)) hp (hsame.current.trans hcurrent)
      (thread?_update hth₁ _) (hcontrol.status.trans hrunning) mm (nargs + 1) nresults
    rw [hcontrol.frames, show (th.insertMm funcIdx nargs mm).top - (nargs + 1) - 1 =
      funcIdx by rw [Thread.top_insertMm]; omega] at hcall
    have hleaves := LeavesAbove.afterUpdate (·.insertMm funcIdx nargs mm) hth₁
      (fun i hi => th.slot_insertMm nargs mm hi) hcontrol hcall
    exact hleaves.afterSame hsame
  · rw [h]
    have hsame := L.getMetamethod_sameCalls v .call
    exact (Untouched.of_sameCalls hsame).raises (by rw [hsame.thread?, hth])
      (th.above_self _) (by omega) e

theorem metaCallOp_leaves (hp : program.Contained leaks)
    (hcurrent : L.current = some a) (hth : L.thread? a = some th)
    (hrunning : th.status = .running) {funcIdx nargs : Nat}
    (htop : th.top = funcIdx + 1 + nargs) (nresults : Wanted) (e : String) :
    L.LeavesAbove a th funcIdx th.frames
      (leaks.metaCall L a funcIdx nargs (some (nresults.getD 1)))
      (L.metaCallOp program a funcIdx nargs nresults e) :=
  (metaCall_leaves hp hcurrent hth hrunning htop _ e).bindOk

theorem opCall_leaves (hp : program.Contained leaks)
    (hcurrent : L.current = some a) (hth : L.thread? a = some th)
    (hrunning : th.status = .running) (ra nargs : Nat) (nresults : Wanted)
    (e : String) :
    L.LeavesAbove a th (th.base + ra) th.frames
      (leaks.opCall L a th ra nargs nresults)
      (L.opCall program a th ra nargs nresults e) := by
  unfold State.opCall Leaks.opCall
  have hcontrol := Thread.SameControl.raiseTop th (th.base + ra) nargs
  have hcurrent₁ := current_update hcurrent (·.raiseTop (th.base + ra) nargs)
  have hth₁ := thread?_update hth (·.raiseTop (th.base + ra) nargs)
  have hrunning₁ := hcontrol.status.trans hrunning
  refine LeavesAbove.afterUpdate (·.raiseTop (th.base + ra) nargs) hth
    (fun i _ => th.slot_raiseTop _ _ i) hcontrol ?_
  rw [← hcontrol.frames]
  simp only
  split
  · exact callFlat_leaves hp hcurrent₁ hth₁ hrunning₁ _ nargs nresults false
      (Nat.le_trans (Nat.le_succ _) (Nat.le_add_right _ _))
  · exact metaCallOp_leaves hp hcurrent₁ hth₁ hrunning₁ rfl nresults e

theorem le_foldl {step : Nat → CallFrame → Nat} {windowEnd : CallFrame → Nat}
    (hstep : ∀ limit fr, limit ≤ step limit fr ∧ windowEnd fr ≤ step limit fr)
    (frames : List CallFrame) : ∀ limit, limit ≤ frames.foldl step limit ∧
      ∀ fr ∈ frames, windowEnd fr ≤ frames.foldl step limit := by
  induction frames with
  | nil => exact fun limit => ⟨Nat.le_refl _, fun _ hfr => absurd hfr List.not_mem_nil⟩
  | cons fr frames ih =>
      intro limit
      obtain ⟨hle, hwindows⟩ := ih (step limit fr)
      refine ⟨(hstep limit fr).1.trans hle, fun fr' hfr' => ?_⟩
      rcases List.mem_cons.mp hfr' with rfl | hfr'
      · exact (hstep limit fr').2.trans hle
      · exact hwindows fr' hfr'

theorem live_le_liveRegsTop (L : State) (th : Thread) :
    th.top ≤ L.liveRegsTop th ∧
    ∀ fr ∈ th.frames, L.windowEnd fr ≤ L.liveRegsTop th := by
  refine le_foldl (fun limit fr => ?_) th.frames th.top
  rw [windowEnd]
  cases fr.proto.bind L.proto? with
  | some p => exact ⟨Nat.le_max_left _ _, Nat.le_max_right _ _⟩
  | none =>
      cases fr.cl.bind L.closure? with
      | none => exact ⟨Nat.le_refl _, Nat.zero_le _⟩
      | some cl =>
          cases hp : cl.proto with
          | none => simp [hp]
          | some p => cases hp' : L.proto? p <;> simp [hp, hp']

theorem base_le_liveRegsTop {fr : CallFrame} (hlast : th.frames.getLast? = some fr)
    (hproto : (fr.proto.bind L.proto?).isSome = true) :
    th.base ≤ L.liveRegsTop th := by
  obtain ⟨p, hp⟩ := Option.isSome_iff_exists.mp hproto
  have hbase : th.base = fr.base := by
    rw [Thread.base, hlast]
    rfl
  have hwindow := (L.live_le_liveRegsTop th).2 fr (List.mem_of_getLast? hlast)
  rw [windowEnd, hp] at hwindow
  rw [hbase]
  exact (Nat.le_add_right _ _).trans hwindow

theorem slideCall_spec (hth : L.thread? a = some th)
    (hbase : th.base ≤ L.liveRegsTop th) (ra nargs : Nat) (fs : List CallFrame) :
    Untouched a th.base fs L (L.slideCall a th ra nargs) ∧
    ∃ th', (L.slideCall a th ra nargs).thread? a = some th' ∧
      th.Above th.base th.frames.dropLast 0 th' [] ∧
      th'.top = th.base + 1 + nargs := by
  unfold slideCall
  simp only
  have hth₁ := thread?_update hth (·.slideUp (L.liveRegsTop th) (th.base + ra) nargs)
  obtain ⟨hu, us, hth₂⟩ := closeUpvals_spec hth₁ th.base th.base fs
  have hclosed := (Thread.SameControl.slideUp th (L.liveRegsTop th) (th.base + ra)
    nargs).openUpvals us
  refine ⟨(Untouched.updateThread L _ fun {t} ht i hi => ?_).trans (hu.trans
    (Untouched.updateThread _ _ fun {t} ht i hi => ?_)), _, thread?_update hth₂ _,
    hclosed.above_slideDown _ _ _ _, rfl⟩
  · exact t.slot_slideUp _ _ (by omega)
  · exact t.slot_slideDown _ _ hi

theorem opTailcall_leaves (hp : program.Contained leaks)
    (hcurrent : L.current = some a) (hth : L.thread? a = some th)
    (hrunning : th.status = .running) (hbase : th.base ≤ L.liveRegsTop th)
    (ra nargs : Nat) (e : String) :
    L.LeavesAbove a th th.base th.frames.dropLast
      (leaks.opTailcall L a th ra nargs)
      (L.opTailcall program a th ra nargs e) := by
  unfold State.opTailcall Leaks.opTailcall
  obtain ⟨hu, th₁, hth₁, habove, htop⟩ :=
    slideCall_spec hth hbase ra nargs th.frames.dropLast
  have hcurrent₁ := hu.current.trans hcurrent
  have hrunning₁ := habove.status.trans hrunning
  have hframes : th₁.frames = th.frames.dropLast :=
    habove.frames.trans (List.append_nil _)
  refine LeavesAbove.afterAbove hu habove ?_
  rw [← hframes]
  simp only
  split
  · exact callFlat_leaves hp hcurrent₁ hth₁ hrunning₁ _ nargs _ true (by omega)
  · exact metaCallOp_leaves hp hcurrent₁ hth₁ hrunning₁ htop _ e

theorem opTforcall_leaves (hp : program.Contained leaks)
    (hcurrent : L.current = some a) (hth : L.thread? a = some th)
    (hrunning : th.status = .running) (ra c : Nat) (e : String) :
    L.LeavesAbove a th (th.base + ra + 3) th.frames
      (leaks.opTforcall L a th ra c)
      (L.opTforcall program a th ra c e) := by
  unfold State.opTforcall Leaks.opTforcall
  have hcontrol := Thread.SameControl.copyIterator th (th.base + ra + 3) c
  have hcurrent₁ := current_update hcurrent (·.copyIterator (th.base + ra + 3) c)
  have hth₁ := thread?_update hth (·.copyIterator (th.base + ra + 3) c)
  have hrunning₁ := hcontrol.status.trans hrunning
  refine LeavesAbove.afterUpdate (·.copyIterator (th.base + ra + 3) c) hth
    (fun i hi => th.slot_copyIterator _ hi) hcontrol ?_
  rw [← hcontrol.frames]
  simp only
  split
  · rename_i f _
    exact callClosure_leaves hp hcurrent₁ hth₁ hrunning₁ f 2 (some c)
  · have htop : (th.copyIterator (th.base + ra + 3) c).top =
        th.base + ra + 3 + 1 + 2 := rfl
    exact metaCallOp_leaves hp hcurrent₁ hth₁ hrunning₁ htop (some c) e

theorem opReturn_spec (hth : L.thread? a = some th) (ra nret : Nat)
    (fs : List CallFrame) :
    Untouched a th.base fs L (L.opReturn a th ra nret) ∧
    ∃ th', (L.opReturn a th ra nret).thread? a = some th' ∧
      th.Above th.base th.frames.dropLast 0 th' [] ∧
      th'.top = th.base +
        ((th.frames.getLast?.map (·.expectedResults)).getD none).getD nret := by
  unfold opReturn
  simp only
  obtain ⟨hu, us, hth₁⟩ := closeUpvals_spec hth th.base th.base fs
  have hclosed := (Thread.SameControl.refl th).openUpvals us
  refine ⟨hu.trans (Untouched.updateThread _ _ fun {t} ht i hi => ?_), _,
    thread?_update hth₁ _, hclosed.above_placeResults _ _ _ _ _, rfl⟩
  exact t.slot_placeResults _ _ _ hi

theorem leaves_raise (hth : L.thread? a = some th) (hframes : th.frames = fs ++ rest)
    (hbases : ∀ fr ∈ rest, lim ≤ fr.base) (htop : lim ≤ th.top) (e : String) :
    L.LeavesAbove a th lim fs 0 (.error e L) :=
  ⟨.refl L, fun _ _ h => (nomatch h), th, rest, hth,
    (Thread.SameControl.refl th).above hframes hbases, htop⟩

theorem invokeMm_leaves (hp : program.Contained leaks)
    (hcurrent : L.current = some a) (hth : L.thread? a = some th)
    (hrunning : th.status = .running) (hframes : th.frames = fs ++ rest)
    (hbases : ∀ fr ∈ rest, lim ≤ fr.base) (htop : lim ≤ th.top)
    (hlim : lim ≤ L.liveRegsTop th) (mm : TValue) (args : List TValue)
    (nout : Nat) :
    L.LeavesAbove a th lim fs (leaks.invokeMm L a th mm args nout)
      (L.invokeMm program a th mm args nout) := by
  unfold State.invokeMm Leaks.invokeMm
  cases mm with
  | function f =>
      have hcontrol := Thread.SameControl.pushMm th (L.liveRegsTop th) (.function f)
        args nout
      have htop₁ : L.liveRegsTop th ≤
          (th.pushMm (L.liveRegsTop th) (.function f) args nout).top :=
        Nat.le_trans (Nat.le_succ _) (Nat.le_add_right _ _)
      have hcall := callFlat_leaves hp (current_update hcurrent
        (·.pushMm (L.liveRegsTop th) (.function f) args nout))
        (thread?_update hth _) (hcontrol.status.trans hrunning) f args.length
        (some nout) false htop₁
      rw [hcontrol.frames, hframes] at hcall
      exact LeavesAbove.afterUpdate _ hth (fun i hi => th.slot_pushMm _ _ _ (by omega))
        hcontrol (hcall.mono hlim hbases)
  | _ => exact leaves_raise hth hframes hbases htop _

theorem callMm_leaves (hp : program.Contained leaks)
    (hcurrent : L.current = some a) (hth : L.thread? a = some th)
    (hrunning : th.status = .running) (hframes : th.frames = fs ++ rest)
    (hbases : ∀ fr ∈ rest, lim ≤ fr.base) (htop : lim ≤ th.top)
    (hlim : lim ≤ L.liveRegsTop th) (mm : TValue) (args : List TValue)
    (nout : Nat) :
    L.LeavesAbove a th lim fs (leaks.callMm L a th mm args nout)
      (L.callMm program a th mm args nout) := by
  unfold State.callMm Leaks.callMm
  cases mm with
  | function f =>
      have hcontrol := Thread.SameControl.pushMm th (L.liveRegsTop th) (.function f)
        args nout
      have hcall := callClosure_leaves hp (current_update hcurrent
        (·.pushMm (L.liveRegsTop th) (.function f) args nout))
        (thread?_update hth _) (hcontrol.status.trans hrunning) f args.length
        (some nout)
      rw [hcontrol.frames, hframes, show (th.pushMm (L.liveRegsTop th)
        (.function f) args nout).top - args.length - 1 = L.liveRegsTop th by
          rw [Thread.top_pushMm]; omega] at hcall
      exact (LeavesAbove.afterUpdate _ hth
        (fun i hi => th.slot_pushMm _ _ _ (by omega)) hcontrol
        (hcall.mono hlim hbases)).bindSetTop htop
  | _ => exact leaves_raise hth hframes hbases htop _

theorem leaves_idle (hth : L.thread? a = some th) (hframes : th.frames = fs ++ rest)
    (hbases : ∀ fr ∈ rest, lim ≤ fr.base) (htop : lim ≤ th.top) :
    L.LeavesAbove a th lim fs 0 (.ok .ok L) :=
  ⟨.refl L, fun _ _ h => by cases h; rfl, th, rest, hth,
    (Thread.SameControl.refl th).above hframes hbases, htop⟩

theorem interpreting?_some (hcurrent : L.current = some a)
    (hth : L.thread? a = some th) (hframes : th.frames = fs ++ rest)
    (hbases : ∀ fr ∈ rest, lim ≤ fr.base) {b : Addr} {t : Thread}
    (h : L.interpreting? (fs.length + 1) = some (b, t)) :
    b = a ∧ t = th ∧ rest ≠ [] ∧ lim ≤ th.base ∧ th.base ≤ L.liveRegsTop th := by
  unfold interpreting? currentThread? at h
  rw [hcurrent, Option.bind_some, hth, Option.map_some,
    Option.filter_eq_some_iff] at h
  obtain ⟨hpair, hcond⟩ := h
  obtain ⟨rfl, rfl⟩ := Prod.mk.inj (Option.some.inj hpair)
  simp only [Bool.and_eq_true, decide_eq_true_eq, Option.any_eq_true] at hcond
  obtain ⟨hdepth, fr, hlast, -, hproto⟩ := hcond
  have hrest : rest ≠ [] := by
    rintro rfl
    rw [hframes, List.append_nil] at hdepth
    omega
  refine ⟨rfl, rfl, hrest, ?_, base_le_liveRegsTop hlast hproto⟩
  have hrestlast : rest.getLast? = some fr := by
    rw [hframes, List.getLast?_append, List.getLast?_eq_some_getLast hrest] at hlast
    rw [List.getLast?_eq_some_getLast hrest]
    exact hlast
  have hbase := hbases fr (List.mem_of_getLast? hrestlast)
  rwa [Thread.base, hlast]

theorem LeavesAbove.andThen {kont : State → Result Status} {more : State → Nat}
    (h : L.LeavesAbove a th lim fs k r)
    (hkont : ∀ {L' th' rest'}, Untouched a lim fs L L' → L'.thread? a = some th' →
      th.Above lim fs k th' rest' → lim ≤ th'.top →
      L'.LeavesAbove a th' lim fs (more L') (kont L')) :
    L.LeavesAbove a th lim fs (k + r.leaksAfter more) (r.andThen kont) := by
  obtain ⟨hu, hfinished, th', rest', hth', habove, htop⟩ := h
  cases r with
  | error e L' => exact ⟨hu, hfinished, th', rest', hth', habove, htop⟩
  | ok s L' =>
      obtain rfl := hfinished s L' rfl
      exact LeavesAbove.after hu habove (hkont hu hth' habove htop)

end State

def Lua.Contained (lua : Lua) : Prop :=
  ∀ {L : State} {a : Addr} {th : Thread} {lim : Nat} {fs rest : List CallFrame},
    L.current = some a → L.thread? a = some th → th.status = .running →
    th.frames = fs ++ rest → (∀ fr ∈ rest, lim ≤ fr.base) → lim ≤ th.top →
    L.LeavesAbove a th lim fs (lua.leaks (fs.length + 1) L)
      (lua.run (fs.length + 1) L)

namespace Lua

open State

variable {L : State} {a : Addr} {th : Thread} {lim k : Nat}
  {fs rest : List CallFrame} {r : Result Status}

theorem Contained.after {lua : Lua} (hlua : lua.Contained)
    (hcurrent : L.current = some a) (hrunning : th.status = .running)
    (h : L.LeavesAbove a th lim fs k r) :
    L.LeavesAbove a th lim fs (k + r.leaksAfter (lua.leaks (fs.length + 1)))
      (r.andThen (lua.run (fs.length + 1))) :=
  h.andThen fun hu hth' habove htop =>
    hlua (hu.current.trans hcurrent) hth' (habove.status.trans hrunning)
      habove.frames habove.bases htop

theorem contained_of_op {lua next : Lua} (hnext : next.Contained)
    {op : Addr → Thread → State → Result Status} {count : Addr → Thread → State → Nat}
    (hrun : ∀ entryDepth L, lua.run entryDepth L =
      match L.interpreting? entryDepth with
      | none => .ok .ok L
      | some (a, th) => (op a th L).andThen (next.run entryDepth))
    (hleaks : ∀ entryDepth L, lua.leaks entryDepth L =
      match L.interpreting? entryDepth with
      | none => 0
      | some (a, th) => count a th L + (op a th L).leaksAfter (next.leaks entryDepth))
    (hop : ∀ {L : State} {a : Addr} {th : Thread} {lim : Nat}
      {fs rest : List CallFrame}, L.current = some a → L.thread? a = some th →
      th.status = .running → th.frames = fs ++ rest → (∀ fr ∈ rest, lim ≤ fr.base) →
      rest ≠ [] → lim ≤ th.top → lim ≤ th.base → th.base ≤ L.liveRegsTop th →
      L.LeavesAbove a th lim fs (count a th L) (op a th L)) : lua.Contained := by
  intro L a th lim fs rest hcurrent hth hrunning hframes hbases htop
  rw [hrun, hleaks]
  split
  · exact leaves_idle hth hframes hbases htop
  · rename_i b t h
    obtain ⟨rfl, rfl, hrest, hlim, hlive⟩ :=
      interpreting?_some hcurrent hth hframes hbases h
    exact hnext.after hcurrent hrunning
      (hop hcurrent hth hrunning hframes hbases hrest htop hlim hlive)

theorem contained_call {callee : Callee} {next : Lua}
    (hp : callee.program.Contained callee.leaks) (hnext : next.Contained)
    (ra nargs : Nat) (nresults : Wanted) (e : String) :
    (Lua.call ra nargs nresults e callee next).Contained := by
  refine contained_of_op hnext (fun _ _ => rfl) (fun _ _ => rfl) ?_
  intro L a th lim fs rest hcurrent hth hrunning hframes hbases _ _ hlim _
  have hop := opCall_leaves hp hcurrent hth hrunning ra nargs nresults e
  rw [hframes] at hop
  exact hop.mono (by omega) hbases

theorem contained_tailcall {callee : Callee} {next : Lua}
    (hp : callee.program.Contained callee.leaks) (hnext : next.Contained)
    (ra nargs : Nat) (e : String) :
    (Lua.tailcall ra nargs e callee next).Contained := by
  refine contained_of_op hnext (fun _ _ => rfl) (fun _ _ => rfl) ?_
  intro L a th lim fs rest hcurrent hth hrunning hframes hbases hrest _ hlim hlive
  have hop := opTailcall_leaves hp hcurrent hth hrunning hlive ra nargs e
  rw [hframes, List.dropLast_append_of_ne_nil hrest] at hop
  exact hop.mono hlim fun fr hfr => hbases fr (List.mem_of_mem_dropLast hfr)

theorem contained_tforcall {callee : Callee} {next : Lua}
    (hp : callee.program.Contained callee.leaks) (hnext : next.Contained)
    (ra c : Nat) (e : String) : (Lua.tforcall ra c e callee next).Contained := by
  refine contained_of_op hnext (fun _ _ => rfl) (fun _ _ => rfl) ?_
  intro L a th lim fs rest hcurrent hth hrunning hframes hbases _ _ hlim _
  have hop := opTforcall_leaves hp hcurrent hth hrunning ra c e
  rw [hframes] at hop
  exact hop.mono (by omega) hbases

theorem contained_invokeMm {callee : Callee} {next : Lua}
    (hp : callee.program.Contained callee.leaks) (hnext : next.Contained)
    (mm : TValue) (args : List TValue) (nout : Nat) :
    (Lua.invokeMm mm args nout callee next).Contained := by
  refine contained_of_op hnext (fun _ _ => rfl) (fun _ _ => rfl) ?_
  intro L a th lim fs rest hcurrent hth hrunning hframes hbases _ htop hlim hlive
  exact invokeMm_leaves hp hcurrent hth hrunning hframes hbases htop
    (hlim.trans hlive) mm args nout

theorem contained_callMm {callee : Callee} {next : Lua}
    (hp : callee.program.Contained callee.leaks) (hnext : next.Contained)
    (mm : TValue) (args : List TValue) (nout : Nat) :
    (Lua.callMm mm args nout callee next).Contained := by
  refine contained_of_op hnext (fun _ _ => rfl) (fun _ _ => rfl) ?_
  intro L a th lim fs rest hcurrent hth hrunning hframes hbases _ htop hlim hlive
  exact callMm_leaves hp hcurrent hth hrunning hframes hbases htop
    (hlim.trans hlive) mm args nout

theorem contained_ret {lua : Lua} (hlua : lua.Contained) (ra nret : Nat) :
    (Lua.ret ra nret lua).Contained := by
  intro L a th lim fs rest hcurrent hth hrunning hframes hbases htop
  unfold Lua.run Lua.leaks
  split
  · exact leaves_idle hth hframes hbases htop
  · rename_i b t h
    obtain ⟨rfl, rfl, hrest, hlim, hlive⟩ :=
      interpreting?_some hcurrent hth hframes hbases h
    obtain ⟨hu, th₁, hth₁, habove, htop₁⟩ := opReturn_spec hth ra nret fs
    have hframes₁ : th₁.frames = fs ++ rest.dropLast := by
      rw [habove.frames, List.append_nil, hframes,
        List.dropLast_append_of_ne_nil hrest]
    have hbases₁ : ∀ fr ∈ rest.dropLast, lim ≤ fr.base :=
      fun fr hfr => hbases fr (List.mem_of_mem_dropLast hfr)
    exact LeavesAbove.afterAbove (hu.mono hlim (List.Subset.refl fs))
      ⟨hframes₁, hbases₁, habove.stackBase, habove.nny, habove.nCcalls, habove.status⟩
      (hlua (hu.current.trans hcurrent) hth₁ (habove.status.trans hrunning) hframes₁
        hbases₁ (by omega))

theorem contained_step {lua : Lua} (hlua : lua.Contained) (s : LuaStep) :
    (Lua.step s lua).Contained := by
  intro L a th lim fs rest hcurrent hth hrunning hframes hbases htop
  unfold Lua.run Lua.leaks
  split
  · exact leaves_idle hth hframes hbases htop
  · rename_i b t h
    obtain ⟨rfl, rfl, hrest, hlim, hlive⟩ :=
      interpreting?_some hcurrent hth hframes hbases h
    obtain ⟨pc, hstep⟩ := s.confined hcurrent hth
    obtain ⟨th₁, rest₁, hth₁, habove, htop₁⟩ := hstep.above hframes hbases hrest
    have hu := hstep.untouched
    exact LeavesAbove.afterAbove
      (hu.mono hlim (hframes ▸ List.subset_append_left fs rest)) habove
      (hlua (hu.current.trans hcurrent) hth₁ (habove.status.trans hrunning)
        habove.frames habove.bases (by omega))

theorem contained_raise (e : String) : (Lua.raise e).Contained := by
  intro L a th lim fs rest hcurrent hth hrunning hframes hbases htop
  unfold Lua.run Lua.leaks
  split
  · exact leaves_idle hth hframes hbases htop
  · exact leaves_raise hth hframes hbases htop e

end Lua

end Luatier
