import Luatier.Vm.FrameEntry

/-!
# Arguments and results

What a call passes on and what it gives back, as lists of values, and the
instructions that read the extra arguments and deliver the results, with every
index checked.
-/

namespace Luatier

open Cells Thread

namespace Thread

def values (th : Thread) (start n : Nat) : List TValue :=
  (List.range n).map fun i => th.slot (start + i)

def args (th : Thread) (callBase b : Nat) : List TValue :=
  th.values (callBase + 1) (th.argCount callBase b)

/-- The number of results of `RETURN`; zero in `b` means up to the top. -/
def retCount (th : Thread) (src b : Nat) : Nat :=
  if b = 0 then th.top - src else b - 1

def returned (th : Thread) (src b : Nat) : List TValue :=
  th.values src (th.retCount src b)

def wanted (th : Thread) : Wanted :=
  (th.frames.getLast?.map (·.expectedResults)).getD none

end Thread

namespace OnStack

/-- The loop of `VARARG`; `reload` grows the stack once more before it. -/
def loadVarargs (fr : CallFrame) (ra nwant reloaded : Nat) : OnStack Unit := do
  ensure (fr.base + ra + nwant + 8)
  ensure reloaded
  ascending (fun i => write (fr.base + ra + i) (fr.varargs.getD i .nil)) 0 nwant

def moveResults (dest src nret : Nat) : OnStack Unit :=
  if 0 < nret ∧ src ≠ dest then copyUp dest src nret else pure ()

/-- `RETURN`, once the upvalues are closed. -/
def placeResults (dest src nret placed : Nat) : OnStack Unit := do
  ensure (max (src + nret) (dest + placed) + 8)
  change fun th => { th with frames := th.frames.dropLast }
  moveResults dest src nret
  clear (dest + nret) (dest + placed)
  change (·.setTop (dest + placed))

end OnStack

namespace OnState

def vararg (a : Addr) (ra b : Nat) : OnState Unit := do
  let th ← thread a
  let L ← get
  match th.frames.getLast? with
  | none => throw (.raised "no frame")
  | some fr => do
      let nwant := if b = 0 then fr.varargs.length else b - 1
      onThread a (OnStack.loadVarargs fr ra nwant (L.reloadSize th))
      if b = 0 then
        onThread a (OnStack.change (·.setTop (fr.base + ra + nwant)))

/-- `RETURN` after its safepoint. -/
def ret (a : Addr) (ra b : Nat) : OnState Unit := do
  let th ← thread a
  let dest := th.base
  let src := th.base + ra
  let nret := th.retCount src b
  change (·.closeUpvals a dest)
  onThread a (OnStack.placeResults dest src nret (th.wanted.getD nret))

end OnState

/-! ## Lists of slots -/

namespace Thread

variable (th : Thread) {th' : Thread}

@[simp] theorem length_values (start n : Nat) : (th.values start n).length = n := by
  simp [values]

theorem getD_values (start n i : Nat) :
    (th.values start n).getD i .nil = if i < n then th.slot (start + i) else .nil := by
  by_cases hi : i < n <;> simp [values, hi]

theorem drop_values (start n k : Nat) :
    (th.values start n).drop k = th.values (start + k) (n - k) := by
  apply List.ext_getElem
  · simp
  · intro i hi hi'
    simp [values, Nat.add_assoc]

theorem values_congr {start start' n : Nat}
    (h : ∀ i < n, th'.slot (start' + i) = th.slot (start + i)) :
    th'.values start' n = th.values start n := by
  apply List.ext_getElem
  · simp
  · intro i hi hi'
    simpa [values] using h i (by simpa using hi)

/-! ## What a function is bound to -/

/-- The frame `fr` of a function finds these arguments. -/
structure Binds (th : Thread) (fr : CallFrame) (p : Proto) (args : List TValue) : Prop where
  params : ∀ i < p.numparams, th.slot (fr.base + i) = args.getD i .nil
  varargs : fr.varargs = if p.isVararg then args.drop p.numparams else []

theorem pushLuaFrame_binds (cl protoAddr : Addr) {p : Proto} {funcIdx : Nat} (nargs : Nat)
    (nresults : Wanted) (isTailcall : Bool)
    (hroom : funcIdx + p.numparams ≤ th.stack.length) :
    ∃ fr : CallFrame,
      (th.pushLuaFrame cl protoAddr p funcIdx nargs nresults isTailcall).frames =
        th.frames ++ [fr] ∧ fr.cl = some cl ∧ fr.proto = some protoAddr ∧
      fr.base = funcIdx ∧ fr.expectedResults = nresults ∧ fr.kind = .interpLua ∧
      (th.pushLuaFrame cl protoAddr p funcIdx nargs nresults isTailcall).Binds fr p
        (th.values (funcIdx + 1) nargs) := by
  refine ⟨_, congrArg (· ++ _) (frames_ensureStack _ _), rfl, rfl, rfl, rfl, rfl, ?_, ?_⟩
  · intro i hi
    have hlen : funcIdx + i < th.stack.length := by omega
    rw [getD_values]
    show (((th.overwrite _).ensureStack _).fillNil (funcIdx + p.numparams) _).slot
      (funcIdx + i) = _
    rw [slot_fillNil _ (by omega), slot_ensureStack, slot_overwrite_of_lt _ hlen,
      if_pos (by omega), Option.getD_some, Nat.add_sub_cancel_left,
      show funcIdx + i + 1 = funcIdx + 1 + i by omega]
  · show List.map _ _ = _
    split
    · rw [drop_values]
      rfl
    · rfl

/-! ## Delivering results -/

theorem slot_placeResults_of_lt (dest src nret : Nat) {placed j : Nat}
    (hj : j < placed) :
    (th.placeResults dest src nret placed).slot (dest + j) =
      if j < nret then th.slot (src + j) else .nil := by
  have hsize := grown_ge th.stack.length (max (src + nret) (dest + placed) + 8)
  have hlen : dest + j <
      (th.ensureStack (max (src + nret) (dest + placed) + 8)).stack.length := by
    rw [length_ensureStack]
    omega
  have hmove : ((th.ensureStack (max (src + nret) (dest + placed) + 8)).move dest src
      nret).slot (dest + j) = if j < nret then th.slot (src + j) else th.slot (dest + j) := by
    rw [Thread.move, slot_overwrite_of_lt _ hlen]
    by_cases hn : j < nret <;> simp [hn, slot_ensureStack]
  show (((th.ensureStack (max (src + nret) (dest + placed) + 8)).move dest src nret).fillNil
    (dest + nret) (dest + placed)).slot (dest + j) = _
  rw [Thread.fillNil, slot_overwrite_of_lt _ (by rwa [length_move]), hmove]
  by_cases hn : j < nret
  · simp [hn, show ¬ (nret ≤ j ∧ j < placed) by omega]
  · simp [hn, hj, Nat.le_of_not_lt hn]

end Thread

namespace OnStack

variable {th : Thread} {dest src nret placed : Nat}

theorem moveResults_ok (hle : dest ≤ src) (hsize : src + nret ≤ th.stack.length) :
    moveResults dest src nret th = .ok () (th.move dest src nret) := by
  unfold moveResults
  split
  · exact copyUp_ok (by omega) hsize (Or.inl hle)
  · rename_i hnone
    by_cases hsrc : src = dest
    · rw [hsrc, th.move_self]
      rfl
    · have hzero : nret = 0 := by
        by_contra hne
        exact hnone ⟨by omega, hsrc⟩
      rw [hzero, Thread.move, th.overwrite_none fun i => if_neg (by omega)]
      rfl

theorem placeResults_ok (hle : dest ≤ src) :
    placeResults dest src nret placed th =
      .ok () (th.placeResults dest src nret placed) := by
  have hsize := grown_ge th.stack.length (max (src + nret) (dest + placed) + 8)
  unfold placeResults
  rw [ensure_bind, change_bind]
  generalize hpopped : ({ th.ensureStack (max (src + nret) (dest + placed) + 8) with
    frames := (th.ensureStack (max (src + nret) (dest + placed) + 8)).frames.dropLast } :
    Thread) = t
  have hlen : t.stack.length =
      grown th.stack.length (max (src + nret) (dest + placed) + 8) := by
    rw [← hpopped]
    exact th.length_ensureStack _
  have hmove : moveResults dest src nret t = .ok () (t.move dest src nret) :=
    moveResults_ok hle (by omega)
  have hclear : clear (dest + nret) (dest + placed) (t.move dest src nret) =
      .ok () ((t.move dest src nret).fillNil (dest + nret) (dest + placed)) :=
    clear_ok (by rw [length_move]; omega)
  rw [bind_of_ok hmove, bind_of_ok hclear, ← hpopped, frames_ensureStack]
  rfl

theorem loadVarargs_ok (th : Thread) (fr : CallFrame) (ra nwant reloaded : Nat) :
    ∃ th', loadVarargs fr ra nwant reloaded th = .ok () th' ∧ th.SameControl th' ∧
      th'.top = th.top ∧ (∀ i < fr.base + ra, th'.slot i = th.slot i) ∧
      ∀ i < nwant, th'.slot (fr.base + ra + i) = fr.varargs.getD i .nil := by
  have hsize := grown_ge th.stack.length (fr.base + ra + nwant + 8)
  have hgrown := le_grown (grown th.stack.length (fr.base + ra + nwant + 8)) reloaded
  unfold loadVarargs
  rw [ensure_bind, ensure_bind]
  generalize ht : (th.ensureStack (fr.base + ra + nwant + 8)).ensureStack reloaded = t
  have hlen : fr.base + ra + nwant ≤ t.stack.length := by
    rw [← ht, length_ensureStack, length_ensureStack]
    omega
  have hslot : ∀ i, t.slot i = th.slot i := by
    intro i
    rw [← ht, slot_ensureStack, slot_ensureStack]
  have hctl : th.SameControl t := by
    rw [← ht]
    exact (SameControl.ensureStack _ _).trans (.ensureStack _ _)
  have hloop : ascending (fun i => write (fr.base + ra + i) (fr.varargs.getD i .nil)) 0 nwant
      t = .ok () (t.overwrite fun i =>
        if fr.base + ra + 0 ≤ i ∧ i < fr.base + ra + 0 + nwant then
          some (fr.varargs.getD (i - (fr.base + ra)) .nil) else none) := by
    apply ascending_overwrite (fr.base + ra) fun i => fr.varargs.getD (i - (fr.base + ra)) .nil
    intro k s _ hk hs
    rw [Nat.add_sub_cancel_left]
    apply write_ok
    rw [hs, length_overwrite]
    omega
  refine ⟨_, hloop, hctl.trans ⟨rfl, rfl, rfl, rfl, rfl⟩, ?_, fun i hi => ?_, fun i hi => ?_⟩
  · show t.top = th.top
    rw [← ht, top_ensureStack, top_ensureStack]
  · rw [slot_overwrite _ (if_neg (by omega)), hslot]
  · rw [slot_overwrite_of_lt _ (by omega), if_pos (by omega), Option.getD_some,
      Nat.add_sub_cancel_left]

end OnStack

namespace OnState

variable {L : State} {a f : Addr} {th : Thread} {p : Proto}

theorem ret_ok (hth : L.thread? a = some th) (ra b : Nat) :
    ∃ us, ret a ra b L = .ok () ((L.closeUpvals a th.base).updateThread a fun _ =>
      ({ th with openUpvals := us } : Thread).placeResults th.base (th.base + ra)
        (th.retCount (th.base + ra) b)
        (th.wanted.getD (th.retCount (th.base + ra) b))) := by
  obtain ⟨-, us, hth₁⟩ := State.closeUpvals_spec hth th.base 0 []
  refine ⟨us, ?_⟩
  unfold ret
  rw [thread_bind hth, change_bind]
  exact onThread_ok hth₁ (OnStack.placeResults_ok (Nat.le_add_right _ _))

end OnState

/-! ## Frames that are pushed -/

/-- `L'` is `L` with a frame for the Lua function `f` on top, bound to its arguments. -/
structure State.Pushes (a : Addr) (L : State) (th : Thread) (f : Addr) (p : Proto)
    (funcIdx : Nat) (nresults : Wanted) (args : List TValue) (L' : State) (th' : Thread)
    (fr : CallFrame) : Prop where
  thread : L'.thread? a = some th'
  frames : th'.frames = th.frames ++ [fr]
  cl : fr.cl = some f
  base : fr.base = funcIdx
  expected : fr.expectedResults = nresults
  binds : th'.Binds fr p args
  nCcalls : th'.nCcalls = th.nCcalls
  top : funcIdx ≤ th'.top
  captured : L'.Captured a = L.Captured a
  slots : ∀ i < funcIdx, th'.slot i = th.slot i

theorem State.captured_updateThread (L : State) (a b : Addr) (g : Thread → Thread) :
    (L.updateThread a g).Captured b = L.Captured b := by
  funext i
  unfold Captured
  rw [upval?_updateThread]

namespace OnState

open State

variable {L : State} {a f : Addr} {th : Thread} {p : Proto} {funcIdx nargs : Nat}
  {nresults : Wanted} {isTailcall : Bool}

theorem enter_ok (nresults : Wanted) (isTailcall : Bool) (hth : L.thread? a = some th)
    (hp : L.luaProto? f = some p) (hcap : th.frames.length ≤ 100000)
    (hargs : funcIdx + 1 + nargs ≤ th.stack.length)
    (hroom : funcIdx + p.numparams ≤ th.stack.length) :
    ∃ L' th' fr, enter a f funcIdx nargs nresults isTailcall L = .ok .lua L' ∧
      L.Pushes a th f p funcIdx nresults (th.values (funcIdx + 1) nargs) L' th' fr := by
  obtain ⟨protoAddr, -, heq⟩ := enter_of_some (a := a) funcIdx nargs nresults isTailcall hp
  obtain ⟨fr, hframes, hcl, -, hbase, hexpected, -, hbinds⟩ :=
    th.pushLuaFrame_binds f protoAddr nargs nresults isTailcall hroom
  have hpush : enter a f funcIdx nargs nresults isTailcall L =
      .ok .lua (L.updateThread a fun _ =>
        th.pushLuaFrame f protoAddr p funcIdx nargs nresults isTailcall) := by
    rw [heq, onThread_bind hth (OnStack.pushLuaFrame_ok hcap hargs hroom)]
    rfl
  refine ⟨_, th.pushLuaFrame f protoAddr p funcIdx nargs nresults isTailcall, fr, hpush, ?_⟩
  exact {
    thread := thread?_update hth _
    frames := hframes
    cl := hcl
    base := hbase
    expected := hexpected
    binds := hbinds
    nCcalls := nCcalls_ensureStack _ _
    top := Nat.le_add_right _ _
    captured := captured_updateThread L a a _
    slots := fun i hi => th.slot_pushLuaFrame f protoAddr p nresults isTailcall hi }

theorem room_of_enter {L' : State} (hth : L.thread? a = some th)
    (hcap : th.frames.length ≤ 100000) (hargs : funcIdx + 1 + nargs ≤ th.stack.length)
    (h : enter a f funcIdx nargs nresults isTailcall L = .ok .lua L') :
    ∃ p, L.luaProto? f = some p ∧ funcIdx + p.numparams ≤ th.stack.length := by
  cases hp : L.luaProto? f with
  | none =>
      obtain ⟨e, heq⟩ | heq :=
        enter_of_none (a := a) funcIdx nargs nresults isTailcall hp
      · rw [heq] at h
        cases h
      · rw [heq] at h
        cases h
  | some p =>
      refine ⟨p, rfl, ?_⟩
      by_contra hfull
      obtain ⟨protoAddr, hproto, heq⟩ :=
        enter_of_some (a := a) funcIdx nargs nresults isTailcall hp
      obtain ⟨th', hfault⟩ : ∃ th', OnStack.pushLuaFrame f protoAddr p funcIdx nargs nresults
          isTailcall th = .error (.outOfBounds th.stack.length th.stack.length) th' :=
        OnStack.pushLuaFrame_outOfBounds hcap hargs (Nat.not_le.mp hfull)
      rw [heq, bind_of_error (onThread_error hth hfault)] at h
      contradiction

end OnState

end Luatier
