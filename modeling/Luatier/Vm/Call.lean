import Luatier.Vm.Meta
import Luatier.Vm.Stack

/-!
# Calls

`callClosure` is the call that native code makes: a native function runs in a
window of the stack, a Lua function in a nested interpreter.  What runs in
them is a parameter.
-/

namespace Luatier

inductive Status where
  | ok | yield
  deriving DecidableEq, Repr

/-- How native code ends; an exception keeps the state it left. -/
abbrev Result (α : Type) := EStateM.Result String State α

namespace Result

variable {α : Type}

def after : Result α → State
  | .ok _ L => L
  | .error _ L => L

def raised : Result α → Bool
  | .ok _ _ => false
  | .error _ _ => true

def unwind (f : State → State) : Result α → Result α
  | .ok v L => .ok v (f L)
  | .error e L => .error e (f L)

@[simp] theorem after_ok (v : α) (L : State) : after (.ok v L) = L := rfl

@[simp] theorem after_error (e : String) (L : State) :
    after (.error e L : Result α) = L := rfl

@[simp] theorem after_unwind (f : State → State) (r : Result α) :
    (r.unwind f).after = f r.after := by
  cases r <;> rfl

@[simp] theorem raised_unwind (f : State → State) (r : Result α) :
    (r.unwind f).raised = r.raised := by
  cases r <;> rfl

end Result

/--
The code that calls run: `interpret`, from the Lua frame on top until it is
popped, and the native functions, which return their number of results.
-/
structure Program where
  interpret : State → Result Status
  cfunc : Addr → State → Result Int

def maxCcalls : UInt16 := 200

namespace Thread

/-- `push_lua_frame`: arguments, missing ones and the window are filled in. -/
def pushLuaFrame (th : Thread) (cl protoAddr : Addr) (p : Proto)
    (funcIdx nargs : Nat) (nresults : Wanted) (isTailcall : Bool) : Thread :=
  let nvar := if p.isVararg then nargs - p.numparams else 0
  let fr : CallFrame :=
    { cl := some cl
      proto := some protoAddr
      base := funcIdx
      expectedResults := nresults
      tailcall := isTailcall
      varargs := (List.range nvar).map fun i =>
        th.slot (funcIdx + 1 + p.numparams + i) }
  let want := max p.maxstack p.numparams
  let th' := th.overwrite fun i =>
    if funcIdx ≤ i ∧ i < funcIdx + p.numparams then
      some (if i - funcIdx < nargs then th.slot (i + 1) else .nil)
    else none
  let th' := (th'.ensureStack (funcIdx + want + 8)).fillNil
    (funcIdx + p.numparams) (funcIdx + want)
  { th' with top := funcIdx + want, frames := th'.frames ++ [fr] }

def enterC (th : Thread) (cl : Addr) (funcIdx nargs : Nat) (isTailcall : Bool) :
    Thread :=
  { th with
    frames := th.frames ++
      [{ cl := some cl, base := funcIdx, kind := .cApi, tailcall := isTailcall }]
    stackBase := funcIdx + 1
    top := funcIdx + 1 + nargs
    nny := th.nny + 1 }

/-- The `catch` of `run_c_call`; only the main thread drops the frame. -/
def raiseC (th : Thread) (isMain : Bool) (funcIdx prevBase prevTop : Nat) :
    Thread :=
  let th := { th with nny := th.nny - 1, stackBase := prevBase }
  if isMain then
    ({ th with frames := th.frames.dropLast, top := funcIdx }).fillNil
      funcIdx prevTop
  else { th with top := funcIdx }

def leaveC (th : Thread) (funcIdx nargs : Nat) (nresults : Wanted)
    (prevBase prevTop resAbs nret : Nat) : Thread :=
  let want := nresults.getD nret
  let th := { th with
    nny := th.nny - 1
    frames := th.frames.dropLast
    stackBase := prevBase }
  let th := ((th.ensureStack (funcIdx + want + 8)).move funcIdx resAbs nret).fillNil
    (funcIdx + nret) (funcIdx + want)
  let clearTo := max prevTop (funcIdx + 1 + nargs)
  { th.fillNil (funcIdx + want) clearTo with top := funcIdx + want }

def yieldC (th : Thread) (funcIdx : Nat) (nresults : Wanted) (resAbs nret : Nat) :
    Thread :=
  let th := { th with
    yieldVals := (List.range nret).map fun i => th.slot (resAbs + i)
    yieldFuncIdx := funcIdx
    yieldNresults := nresults }
  { th.ensureStack (funcIdx + 8) with top := funcIdx, nny := th.nny - 1 }

/-- A protected call across a yield: its own frame becomes a continuation. -/
def continueC (th : Thread) (cl : Addr) (funcIdx : Nat) (nresults : Wanted)
    (contKind : ContKind) (ctx : TValue) (resBase : Nat) : Option Thread :=
  let isSelf (fr : CallFrame) :=
    fr.cl == some cl && fr.kind == .cApi && fr.base == funcIdx
  (th.frames.reverse.findIdx? isSelf).map fun i =>
    { th with
      frames := th.frames.modify (th.frames.length - 1 - i) fun fr =>
        { fr with
          kind := .continue
          contKind
          contCtx := ctx
          contResBase := resBase
          expectedResults := nresults } }

def countCall (th : Thread) : Thread := { th with nCcalls := th.nCcalls + 1 }

def uncountCall (th : Thread) : Thread :=
  { th with nCcalls := if 0 < th.nCcalls then th.nCcalls - 1 else th.nCcalls }

end Thread

namespace State

def countCall (L : State) (a : Addr) : State := L.updateThread a Thread.countCall

def incrCcalls (L : State) (a : Addr) : Result Unit :=
  let L := L.countCall a
  match L.thread? a with
  | some th =>
      if th.nCcalls = maxCcalls then .error "C stack overflow" L
      else if maxCcalls + maxCcalls / 8 ≤ th.nCcalls then
        .error "error in error handling" L
      else .ok () L
  | none => .ok () L

def decrCcalls (L : State) (a : Addr) : State :=
  L.updateThread a Thread.uncountCall

/-- A native function that yields, on the thread `a` with the state `th`. -/
def suspendC (L : State) (a : Addr) (th : Thread) (cl : Addr) (funcIdx : Nat)
    (nresults : Wanted) (resAbs nret : Nat) : Result Status :=
  let L := L.updateThread a ({ · with stackBase := th.stackBase })
  if L.yieldContinue then
    match (L.thread? a).bind (·.continueC cl funcIdx nresults L.yieldContKind
        L.yieldContCtx L.yieldContResBase) with
    | none => .error "yieldable C: missing frame" L
    | some th' =>
        .ok .yield { L.updateThread a (fun _ => th') with
          yieldContinue := false
          yieldContKind := .none
          yieldContCtx := .nil
          yieldContResBase := 0
          yieldPending := false }
  else
    .ok .yield { L.updateThread a (·.yieldC funcIdx nresults resAbs nret) with
      yieldPending := false }

/-- `run_c_call` once the function is back. -/
def finishC (a : Addr) (th : Thread) (cl : Addr) (funcIdx nargs : Nat)
    (nresults : Wanted) : Result Int → Result Status
  | .error e L =>
      .error e (L.updateThread a
        (·.raiseC (L.main == some a) funcIdx th.stackBase th.top))
  | .ok nret L =>
      let nret := min nret.toNat L.gettop
      let resAbs := ((L.thread? a).map (·.stackBase)).getD 0 + (L.gettop - nret)
      if L.yieldPending then L.suspendC a th cl funcIdx nresults resAbs nret
      else
        .ok .ok (L.updateThread a
          (·.leaveC funcIdx nargs nresults th.stackBase th.top resAbs nret))

def enterC (L : State) (a : Addr) (cl : Addr) (funcIdx nargs : Nat)
    (isTailcall : Bool) : State :=
  { L.updateThread a (·.enterC cl funcIdx nargs isTailcall) with
    yieldPending := false }

variable (program : Program)

/-- `run_c_call` after its checks, on the thread `a` with the state `th`. -/
def runCFrame (L : State) (a : Addr) (th : Thread) (cl : Addr)
    (funcIdx nargs : Nat) (nresults : Wanted) (isTailcall : Bool) : Result Status :=
  finishC a th cl funcIdx nargs nresults
    (program.cfunc cl (L.enterC a cl funcIdx nargs isTailcall))

def runCCall (L : State) (a : Addr) (cl : Addr) (funcIdx nargs : Nat)
    (nresults : Wanted) (isTailcall : Bool) :
    Result Status :=
  match L.thread? a with
  | none => .error "no thread" L
  | some th =>
      if th.stack.length < funcIdx + 1 + nargs then
        .error "run_c_call: stack underflow" L
      else
        match L.incrCcalls a with
        | .error e L => .error e L
        | .ok _ L => Result.unwind (decrCcalls · a)
            (L.runCFrame program a th cl funcIdx nargs nresults isTailcall)

/-- `push_lua_frame`, with the cap on the number of frames. -/
def pushLuaFrame (L : State) (a : Addr) (cl protoAddr : Addr)
    (funcIdx nargs : Nat) (nresults : Wanted) (isTailcall : Bool) :
    Result Unit :=
  match L.thread? a, L.proto? protoAddr with
  | some th, some p =>
      if 100000 < th.frames.length then .error "stack overflow" L
      else .ok () (L.updateThread a
        (·.pushLuaFrame cl protoAddr p funcIdx nargs nresults isTailcall))
  | _, _ => .error "no prototype" L

/-- The Lua branch of `call_closure`: a nested `interpret` is a C-call level. -/
def callLua (L : State) (a : Addr) (cl protoAddr : Addr) (funcIdx nargs : Nat)
    (nresults : Wanted) : Result Status :=
  match L.incrCcalls a with
  | .error e L => .error e L
  | .ok _ L => Result.unwind (decrCcalls · a)
      (match L.pushLuaFrame a cl protoAddr funcIdx nargs nresults false with
      | .error e L => .error e L
      | .ok _ L => program.interpret L)

/-- `call_closure`: the function lies below its arguments at the top. -/
def callClosure (L : State) (cl : Addr) (nargs : Nat) (nresults : Wanted) :
    Result Status :=
  match L.current.bind fun a => (L.thread? a).map (a, ·), L.closure? cl with
  | some (a, th), some c =>
      if th.top < nargs + 1 then .error "call_closure stack underflow" L
      else
        let funcIdx := th.top - nargs - 1
        match c.proto with
        | none => L.runCCall program a cl funcIdx nargs nresults false
        | some p => L.callLua program a cl p funcIdx nargs nresults
  | _, _ => .error "no closure" L

end State

end Luatier
