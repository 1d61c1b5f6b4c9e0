import Luatier.Vm.StackAccess
import Luatier.Vm.Upvals
import Luatier.Vm.CodeSpec

/-!
# Entering Lua functions

What every call does until the frame of the Lua function is pushed: the growth
of the stack, the moves of the function and its arguments, and
`push_lua_frame`, with every index checked.  A native function has no such
frame; its call is left to be made.
-/

namespace Luatier

open Cells Thread

namespace OnStack

def fillParam (funcIdx nargs i : Nat) : OnStack Unit :=
  if i < nargs then copySlot (funcIdx + i) (funcIdx + 1 + i)
  else write (funcIdx + i) .nil

/-- `push_lua_frame`; the parameters are written before the stack is grown. -/
def pushLuaFrame (cl protoAddr : Addr) (p : Proto) (funcIdx nargs : Nat)
    (nresults : Wanted) (isTailcall : Bool) : OnStack Unit := do
  let th ← get
  if 100000 < th.frames.length then throw (.raised "stack overflow")
  else
    let nfixed := p.numparams
    let nvar := if p.isVararg then nargs - nfixed else 0
    let varargs ← readAll (funcIdx + 1 + nfixed) nvar
    ascending (fillParam funcIdx nargs) 0 nfixed
    let want := max p.maxstack nfixed
    ensure (funcIdx + want + 8)
    clear (funcIdx + nfixed) (funcIdx + want)
    let fr : CallFrame :=
      { cl := some cl
        proto := some protoAddr
        base := funcIdx
        expectedResults := nresults
        tailcall := isTailcall
        varargs }
    change fun th => { th with top := funcIdx + want, frames := th.frames ++ [fr] }

/-- `CALL` up to the value that is called; `reload` grows the stack again. -/
def raiseTop (callBase nargs reloaded : Nat) : OnStack TValue := do
  ensure (callBase + 1 + nargs + 8)
  change (·.setTop (callBase + 1 + nargs))
  ensure reloaded
  read callBase

/-- The first half of `TAILCALL`, with the value that is called. -/
def slideUp (tmp src nargs : Nat) : OnStack TValue := do
  ensure (tmp + nargs + 1 + 8)
  copyUp tmp src (nargs + 1)
  read tmp

/-- The second half of `TAILCALL`. -/
def slideDown (dest tmp nargs : Nat) : OnStack Unit := do
  ensure (dest + 1 + nargs + 8)
  copyUp dest tmp (nargs + 1)
  change fun th => { th with top := dest + 1 + nargs, frames := th.frames.dropLast }

/-- `TFORCALL`, with the value that is called. -/
def copyIterator (ra cb c : Nat) : OnStack TValue := do
  ensure (cb + 3 + c)
  copyUp cb ra 3
  change (·.setTop (cb + 3))
  read cb

def pushMm (callBase : Nat) (mm : TValue) (args : List TValue) (nout : Nat) :
    OnStack Unit := do
  ensure (callBase + 1 + args.length + nout + 8)
  writeAll callBase (mm :: args)
  change (·.setTop (callBase + 1 + args.length))

/-- `meta_call` puts the metamethod below the value it is called for. -/
def insertMm (funcIdx nargs : Nat) (mm : Addr) : OnStack Unit := do
  ensure (funcIdx + 2 + nargs)
  copyDown (funcIdx + 1) funcIdx (nargs + 1)
  write funcIdx (.function mm)
  change (·.setTop (funcIdx + 2 + nargs))

end OnStack

/-- Code that works on the whole state. -/
abbrev OnState (α : Type) := EStateM Stop State α

/-- What a call comes to, once the function and its arguments are in place. -/
inductive Entered where
  | lua
  | native (f : Addr) (funcIdx nargs : Nat) (nresults : Wanted) (isTailcall : Bool)
  deriving DecidableEq, Repr

/-- The number of arguments of `CALL` and `TAILCALL`; zero in `b` means up to the top. -/
def Thread.argCount (th : Thread) (callBase b : Nat) : Nat :=
  if b = 0 then th.top - callBase - 1 else b - 1

namespace State

def luaProto? (L : State) (f : Addr) : Option Proto :=
  (L.closure? f).bind fun c => c.proto.bind L.proto?

def frameSize (L : State) (th : Thread) : Nat :=
  (((th.frames.getLast?.bind (·.proto)).bind L.proto?).map (·.maxstack)).getD 0

def reloadSize (L : State) (th : Thread) : Nat :=
  th.base + L.frameSize th + (th.frames.getLast?.map (·.varargs.length)).getD 0 + 8

end State

namespace OnState

variable {α : Type}

def onThread (a : Addr) (m : OnStack α) : OnState α := fun L =>
  match L.thread? a with
  | none => .error (.raised "no thread") L
  | some th =>
      match m th with
      | .ok v th' => .ok v (L.updateThread a fun _ => th')
      | .error e th' => .error e (L.updateThread a fun _ => th')

def thread (a : Addr) : OnState Thread := fun L =>
  match L.thread? a with
  | none => .error (.raised "no thread") L
  | some th => .ok th L

def change (f : State → State) : OnState Unit := fun L => .ok () (f L)

def ofResult (r : State → Result α) : OnState α := fun L =>
  match r L with
  | .ok v L => .ok v L
  | .error e L => .error (.raised e) L

def metamethod (v : TValue) (e : TmEvent) : OnState TValue := fun L =>
  .ok (L.getMetamethod v e).1 (L.getMetamethod v e).2

def enter (a f : Addr) (funcIdx nargs : Nat) (nresults : Wanted) (isTailcall : Bool) :
    OnState Entered := do
  let L ← get
  match L.closure? f with
  | none => throw (.raised "no closure")
  | some c =>
      match c.proto with
      | none => pure (.native f funcIdx nargs nresults isTailcall)
      | some protoAddr =>
          match L.proto? protoAddr with
          | none => throw (.raised "no prototype")
          | some p => do
              onThread a
                (OnStack.pushLuaFrame f protoAddr p funcIdx nargs nresults isTailcall)
              pure .lua

/-- `call_closure`: a Lua function is a level of nested calls. -/
def enterClosure (a f : Addr) (nargs : Nat) (nresults : Wanted) : OnState Entered := do
  let th ← thread a
  if th.top < nargs + 1 then throw (.raised "call_closure stack underflow")
  else
    let L ← get
    match (L.closure? f).bind (·.proto) with
    | none => enter a f (th.top - nargs - 1) nargs nresults false
    | some _ => do
        ofResult (·.incrCcalls a)
        enter a f (th.top - nargs - 1) nargs nresults false

def callValue (v : TValue) (m : Addr → OnState Entered) (orElse : OnState Entered) :
    OnState Entered :=
  match v with
  | .function f => m f
  | _ => orElse

/-- `meta_call` of a value that is no function; `e` is the text of the type error. -/
def enterMeta (a : Addr) (v : TValue) (funcIdx nargs : Nat) (nresults : Wanted)
    (e : String) : OnState Entered := do
  let mm ← metamethod v .call
  match mm with
  | .function f => do
      onThread a (OnStack.insertMm funcIdx nargs f)
      enterClosure a f (nargs + 1) nresults
  | _ => throw (.raised e)

end OnState

/-- The ways to call a function; `e` is the text of a type error. -/
inductive Entry where
  | call (ra b : Nat) (nresults : Wanted) (e : String)
  | tailcall (ra b : Nat) (e : String)
  | tforcall (ra c : Nat) (e : String)
  | invokeMm (f : Addr) (args : List TValue) (nout : Nat)
  | callMm (f : Addr) (args : List TValue) (nout : Nat)
  /-- `call_closure` by native code: pcall, resume, the API, hooks and finalizers. -/
  | closure (f : Addr) (nargs : Nat) (nresults : Wanted)

namespace OnState

def enterCall (a : Addr) (ra b : Nat) (nresults : Wanted) (e : String) :
    OnState Entered := do
  let th ← thread a
  let L ← get
  let callBase := th.base + ra
  let nargs := th.argCount callBase b
  let v ← onThread a (OnStack.raiseTop callBase nargs (L.reloadSize th))
  callValue v (fun f => enter a f callBase nargs nresults false)
    (enterMeta a v callBase nargs (some (nresults.getD 1)) e)

def enterTailcall (a : Addr) (ra b : Nat) (e : String) : OnState Entered := do
  let th ← thread a
  let L ← get
  let nresults := (th.frames.getLast?.map (·.expectedResults)).getD none
  let dest := th.base
  let nargs := th.argCount (dest + ra) b
  let tmp := L.liveRegsTop th
  let v ← onThread a (OnStack.slideUp tmp (dest + ra) nargs)
  change (·.closeUpvals a dest)
  onThread a (OnStack.slideDown dest tmp nargs)
  callValue v (fun f => enter a f dest nargs nresults true)
    (enterMeta a v dest nargs (some (nresults.getD 1)) e)

def enterTforcall (a : Addr) (ra c : Nat) (e : String) : OnState Entered := do
  let th ← thread a
  let cb := th.base + ra + 3
  let v ← onThread a (OnStack.copyIterator (th.base + ra) cb c)
  callValue v (fun f => enterClosure a f 2 (some c)) (enterMeta a v cb 2 (some c) e)

def enterMm (a f : Addr) (args : List TValue) (nout : Nat)
    (k : Nat → OnState Entered) : OnState Entered := do
  let th ← thread a
  let L ← get
  onThread a (OnStack.pushMm (L.liveRegsTop th) (.function f) args nout)
  k (L.liveRegsTop th)

def enterBy (a : Addr) : Entry → OnState Entered
  | .call ra b nresults e => enterCall a ra b nresults e
  | .tailcall ra b e => enterTailcall a ra b e
  | .tforcall ra c e => enterTforcall a ra c e
  | .invokeMm f args nout =>
      enterMm a f args nout fun callBase =>
        enter a f callBase args.length (some nout) false
  | .callMm f args nout =>
      enterMm a f args nout fun _ => enterClosure a f args.length (some nout)
  | .closure f nargs nresults => enterClosure a f nargs nresults

end OnState

/-! ## `push_lua_frame` -/

namespace OnStack

variable {th : Thread} {cl protoAddr : Addr} {p : Proto} {funcIdx nargs : Nat}
  {nresults : Wanted} {isTailcall : Bool}

def paramSlot (th : Thread) (funcIdx nargs i : Nat) : TValue :=
  if i - funcIdx < nargs then th.slot (i + 1) else .nil

theorem fillParam_ok {t : Thread} {k : Nat} (hargs : funcIdx + 1 + nargs ≤ th.stack.length)
    (hk : funcIdx + k < th.stack.length)
    (ht : t = th.overwrite fun i => if funcIdx + 0 ≤ i ∧ i < funcIdx + k then
      some (paramSlot th funcIdx nargs i) else none) :
    fillParam funcIdx nargs k t =
      .ok () (t.setSlot (funcIdx + k) (paramSlot th funcIdx nargs (funcIdx + k))) := by
  have hlen : t.stack.length = th.stack.length := by rw [ht, length_overwrite]
  unfold fillParam paramSlot
  rw [Nat.add_sub_cancel_left]
  split
  · rw [copySlot_ok (by omega) (by omega)]
    congr 2
    rw [ht, show funcIdx + k + 1 = funcIdx + 1 + k by omega]
    exact th.slot_overwrite (if_neg (by omega))
  · exact write_ok (by omega)

theorem fillParams_ok (hargs : funcIdx + 1 + nargs ≤ th.stack.length) {n : Nat}
    (hparams : funcIdx + n ≤ th.stack.length) :
    ascending (fillParam funcIdx nargs) 0 n th = .ok () (th.overwrite fun i =>
      if funcIdx ≤ i ∧ i < funcIdx + n then some (paramSlot th funcIdx nargs i)
      else none) := by
  rw [ascending_overwrite funcIdx (paramSlot th funcIdx nargs)]
  · rfl
  · intro k t _ hk ht
    exact fillParam_ok hargs (by omega) ht

theorem fillParams_outOfBounds (hargs : funcIdx + 1 + nargs ≤ th.stack.length) {n : Nat}
    (hparams : th.stack.length < funcIdx + n) :
    ∃ th', ascending (fillParam funcIdx nargs) 0 n th =
      .error (.outOfBounds th.stack.length th.stack.length) th' := by
  have hloop := Ends.ascending (fillParam funcIdx nargs) (n := n) (i := 0) (s := th)
    (E := fun e _ => e = .outOfBounds th.stack.length th.stack.length)
    (P := fun k t => funcIdx + k ≤ th.stack.length ∧ t = th.overwrite fun i =>
      if funcIdx + 0 ≤ i ∧ i < funcIdx + k then some (paramSlot th funcIdx nargs i)
      else none)
    ⟨by omega, (th.overwrite_none fun i => if_neg (by omega)).symm⟩
  have hends : Ends (ascending (fillParam funcIdx nargs) 0 n) th (fun _ _ => False)
      fun e _ => e = .outOfBounds th.stack.length th.stack.length := by
    apply (hloop ?_).mono
    · rintro _ s ⟨hle, -⟩
      omega
    · exact fun _ _ => id
    rintro k t - hk ⟨hle, ht⟩
    by_cases hend : funcIdx + k = th.stack.length
    · have hlen : t.stack.length = th.stack.length := by rw [ht, length_overwrite]
      have hfault : fillParam funcIdx nargs k t =
          .error (.outOfBounds th.stack.length th.stack.length) t := by
        unfold fillParam
        rw [if_neg (by omega), write_outOfBounds (by omega), hlen, hend]
      unfold Ends
      rw [hfault]
    · unfold Ends
      rw [fillParam_ok hargs (by omega) ht]
      refine ⟨by omega, ?_⟩
      rw [ht]
      exact th.setSlot_overwrite (by omega)
  obtain ⟨e, th', hfault, rfl⟩ := exists_error hends
  exact ⟨th', hfault⟩

theorem pushLuaFrame_capped (hcap : 100000 < th.frames.length) :
    pushLuaFrame cl protoAddr p funcIdx nargs nresults isTailcall th =
      .error (.raised "stack overflow") th := by
  unfold pushLuaFrame
  rw [get_bind, if_pos hcap]
  rfl

theorem readVarargs_ok (hargs : funcIdx + 1 + nargs ≤ th.stack.length) (p : Proto) :
    readAll (funcIdx + 1 + p.numparams) (if p.isVararg then nargs - p.numparams else 0) th =
      .ok ((List.range (if p.isVararg then nargs - p.numparams else 0)).map fun i =>
        th.slot (funcIdx + 1 + p.numparams + i)) th := by
  by_cases hle : p.numparams ≤ nargs
  · apply readAll_ok
    split <;> omega
  · have hzero : (if p.isVararg then nargs - p.numparams else 0) = 0 := by
      split <;> omega
    rw [hzero]
    rfl

theorem pushLuaFrame_ok (hcap : th.frames.length ≤ 100000)
    (hargs : funcIdx + 1 + nargs ≤ th.stack.length)
    (hparams : funcIdx + p.numparams ≤ th.stack.length) :
    pushLuaFrame cl protoAddr p funcIdx nargs nresults isTailcall th =
      .ok () (th.pushLuaFrame cl protoAddr p funcIdx nargs nresults isTailcall) := by
  unfold pushLuaFrame
  rw [get_bind,
    if_neg (Nat.not_lt.mpr hcap), bind_of_ok (readVarargs_ok hargs p),
    bind_of_ok (fillParams_ok hargs hparams)]
  generalize hfilled : th.overwrite _ = filled
  rw [ensure_bind,
    bind_of_ok (clear_ok (by
      have := grown_ge filled.stack.length (funcIdx + max p.maxstack p.numparams + 8)
      rw [length_ensureStack]
      omega)), ← hfilled]
  rfl

theorem pushLuaFrame_outOfBounds (hcap : th.frames.length ≤ 100000)
    (hargs : funcIdx + 1 + nargs ≤ th.stack.length)
    (hparams : th.stack.length < funcIdx + p.numparams) :
    ∃ th', pushLuaFrame cl protoAddr p funcIdx nargs nresults isTailcall th =
      .error (.outOfBounds th.stack.length th.stack.length) th' := by
  obtain ⟨th', hfault⟩ := fillParams_outOfBounds hargs hparams
  refine ⟨th', ?_⟩
  unfold pushLuaFrame
  rw [get_bind,
    if_neg (Nat.not_lt.mpr hcap), bind_of_ok (readVarargs_ok hargs p)]
  exact bind_of_error hfault

/-! ## Putting a call together -/

variable {callBase tmp src dest cb ra c nout reloaded : Nat} {mm : Addr} {v : TValue}
  {args : List TValue}

theorem raiseTop_ok (th : Thread) (callBase nargs reloaded : Nat) :
    raiseTop callBase nargs reloaded th =
      .ok (th.slot callBase) ((th.raiseTop callBase nargs).ensureStack reloaded) := by
  have hsize := grown_ge th.stack.length (callBase + 1 + nargs + 8)
  have hgrown := le_grown (grown th.stack.length (callBase + 1 + nargs + 8)) reloaded
  have hslot : ((th.raiseTop callBase nargs).ensureStack reloaded).slot callBase =
      th.slot callBase := (slot_ensureStack _ _ _).trans (slot_raiseTop th _ _ _)
  rw [← hslot]
  apply read_ok
  rw [length_ensureStack]
  show callBase < grown (th.ensureStack (callBase + 1 + nargs + 8)).stack.length reloaded
  rw [length_ensureStack]
  omega

theorem slideUp_ok (hsrc : src + nargs + 1 ≤ tmp) :
    slideUp tmp src nargs th =
      .ok (th.slot src) (th.slideUp tmp src nargs) := by
  have hsize := grown_ge th.stack.length (tmp + nargs + 1 + 8)
  have hcopy : copyUp tmp src (nargs + 1) (th.ensureStack (tmp + nargs + 1 + 8)) =
      .ok () (th.slideUp tmp src nargs) := by
    apply copyUp_ok
    · rw [length_ensureStack]
      omega
    · rw [length_ensureStack]
      omega
    · right
      omega
  have hslot : (th.slideUp tmp src nargs).slot tmp = th.slot src := by
    have hlen : tmp < (th.ensureStack (tmp + nargs + 1 + 8)).stack.length := by
      rw [length_ensureStack]
      omega
    rw [Thread.slideUp, Thread.move, slot_overwrite_of_lt _ hlen, if_pos (by omega),
      Nat.sub_self, Nat.add_zero, slot_ensureStack]
    rfl
  unfold slideUp
  rw [ensure_bind, bind_of_ok hcopy, ← hslot]
  apply read_ok
  rw [Thread.slideUp, length_move, length_ensureStack]
  omega

theorem slideDown_ok (hdest : dest ≤ tmp) (hsize : tmp + nargs + 1 ≤ th.stack.length) :
    slideDown dest tmp nargs th = .ok () (th.slideDown dest tmp nargs) := by
  have hgrown := le_grown th.stack.length (dest + 1 + nargs + 8)
  have hcopy : copyUp dest tmp (nargs + 1) (th.ensureStack (dest + 1 + nargs + 8)) =
      .ok () ((th.ensureStack (dest + 1 + nargs + 8)).move dest tmp (nargs + 1)) := by
    apply copyUp_ok
    · rw [length_ensureStack]
      omega
    · rw [length_ensureStack]
      omega
    · exact Or.inl hdest
  unfold slideDown
  rw [ensure_bind, bind_of_ok hcopy]
  have hframes : ((th.ensureStack (dest + 1 + nargs + 8)).move dest tmp (nargs + 1)).frames =
      th.frames := frames_ensureStack _ _
  rw [Thread.slideDown, ← hframes]
  rfl

theorem copyIterator_ok (th : Thread) (ra c : Nat) :
    copyIterator ra (ra + 3) c th =
      .ok (th.slot ra) (th.copyIterator (ra + 3) c) := by
  have hsize := grown_ge th.stack.length (ra + 3 + 3 + c)
  have hcopy : copyUp (ra + 3) ra 3 (th.ensureStack (ra + 3 + 3 + c)) =
      .ok () ((th.ensureStack (ra + 3 + 3 + c)).move (ra + 3) ra 3) := by
    apply copyUp_ok
    · rw [length_ensureStack]
      omega
    · rw [length_ensureStack]
      omega
    · exact Or.inr (Nat.le_refl _)
  have hslot : (th.copyIterator (ra + 3) c).slot (ra + 3) = th.slot ra := by
    have hlen : ra + 3 < (th.ensureStack (ra + 3 + 3 + c)).stack.length := by
      rw [length_ensureStack]
      omega
    show ((th.ensureStack (ra + 3 + 3 + c)).move (ra + 3) (ra + 3 - 3) 3).slot (ra + 3) = _
    rw [Thread.move, slot_overwrite_of_lt _ hlen, if_pos (by omega), Nat.sub_self,
      slot_ensureStack]
    rfl
  unfold copyIterator
  rw [ensure_bind, bind_of_ok hcopy, ← hslot]
  apply read_ok
  show ra + 3 < ((th.ensureStack (ra + 3 + 3 + c)).move (ra + 3) ra 3).stack.length
  rw [length_move, length_ensureStack]
  omega

theorem pushMm_ok (th : Thread) (callBase : Nat) (v : TValue) (args : List TValue)
    (nout : Nat) :
    pushMm callBase v args nout th = .ok () (th.pushMm callBase v args nout) := by
  have hsize := grown_ge th.stack.length (callBase + 1 + args.length + nout + 8)
  unfold pushMm
  rw [ensure_bind,
    bind_of_ok (writeAll_ok (by rw [length_ensureStack, List.length_cons]; omega))]
  rfl

theorem insertMm_ok (th : Thread) (funcIdx nargs : Nat) (mm : Addr) :
    insertMm funcIdx nargs mm th = .ok () (th.insertMm funcIdx nargs mm) := by
  have hsize := grown_ge th.stack.length (funcIdx + 2 + nargs)
  unfold insertMm
  rw [ensure_bind,
    bind_of_ok (copyDown_ok (by rw [length_ensureStack]; omega)
      (by rw [length_ensureStack]; omega) (Nat.le_succ _)),
    bind_of_ok (write_ok (by rw [length_move, length_ensureStack]; omega))]
  rfl

end OnStack

/-! ## Programs on the state -/

namespace State

variable {L L' : State}

theorem luaProto?_congr (hproto : L'.proto? = L.proto?) (hclosure : L'.closure? = L.closure?)
    (f : Addr) : L'.luaProto? f = L.luaProto? f := by
  rw [luaProto?, luaProto?, hproto, hclosure]

theorem luaProto?_updateThread (L : State) (a : Addr) (g : Thread → Thread) (f : Addr) :
    (L.updateThread a g).luaProto? f = L.luaProto? f :=
  luaProto?_congr (proto?_updateThread L a g) (closure?_updateThread L a g) f

end State

namespace OnState

variable {L : State} {a : Addr} {th th' : Thread} {α β : Type} {v : α} {e : Stop}

theorem onThread_ok {m : OnStack α} (hth : L.thread? a = some th)
    (hm : m th = .ok v th') : onThread a m L = .ok v (L.updateThread a fun _ => th') := by
  simp only [onThread, hth, hm]

theorem onThread_error {m : OnStack α} (hth : L.thread? a = some th)
    (hm : m th = .error e th') :
    onThread a m L = .error e (L.updateThread a fun _ => th') := by
  simp only [onThread, hth, hm]

theorem onThread_bind {m : OnStack α} {f : α → OnState β} (hth : L.thread? a = some th)
    (hm : m th = .ok v th') :
    (onThread a m >>= f) L = f v (L.updateThread a fun _ => th') :=
  bind_of_ok (onThread_ok hth hm)

theorem thread_bind {f : Thread → OnState β} (hth : L.thread? a = some th) :
    (thread a >>= f) L = f th L := by
  apply bind_of_ok
  simp only [thread, hth]

theorem get_bind (f : State → OnState β) (L : State) :
    ((get : OnState State) >>= f) L = f L L := rfl

theorem change_bind (g : State → State) (f : Unit → OnState β) (L : State) :
    (change g >>= f) L = f () (g L) := rfl

/-! ## Calls from the interpreter -/

theorem callValue_of_ne {v : TValue} (k : Addr → OnState Entered) (orElse : OnState Entered)
    (h : ∀ f, v ≠ .function f) : callValue v k orElse = orElse := by
  cases v with
  | function f => exact absurd rfl (h f)
  | _ => rfl

variable {f : Addr} {p : Proto} (funcIdx nargs : Nat) (nresults : Wanted)
  (isTailcall : Bool)

theorem enter_of_none (hp : L.luaProto? f = none) :
    (∃ e, enter a f funcIdx nargs nresults isTailcall L = .error (.raised e) L) ∨
      enter a f funcIdx nargs nresults isTailcall L =
        .ok (.native f funcIdx nargs nresults isTailcall) L := by
  unfold enter
  rw [get_bind]
  unfold State.luaProto? at hp
  cases hf : L.closure? f with
  | none => exact Or.inl ⟨_, rfl⟩
  | some c =>
      rw [hf, Option.bind_some] at hp
      cases hc : c.proto with
      | none =>
          right
          simp only [hc]
          rfl
      | some protoAddr =>
          rw [hc, Option.bind_some] at hp
          left
          simp only [hc, hp]
          exact ⟨_, rfl⟩

theorem enter_of_some (hp : L.luaProto? f = some p) :
    ∃ protoAddr, L.proto? protoAddr = some p ∧
      enter a f funcIdx nargs nresults isTailcall L =
        (do
          onThread a
            (OnStack.pushLuaFrame f protoAddr p funcIdx nargs nresults isTailcall)
          pure .lua : OnState Entered) L := by
  unfold State.luaProto? at hp
  obtain ⟨c, hf, hc⟩ := Option.bind_eq_some_iff.mp hp
  obtain ⟨protoAddr, hproto, hp⟩ := Option.bind_eq_some_iff.mp hc
  refine ⟨protoAddr, hp, ?_⟩
  unfold enter
  rw [get_bind]
  simp only [hf, hproto, hp]

end OnState

end Luatier
