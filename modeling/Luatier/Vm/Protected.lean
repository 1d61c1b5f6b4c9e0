import Luatier.Vm.Upvals

/-!
# Protected calls

`pcall` and `xpcall` catch an error by dropping the frames that the call left
behind; `lua_pcall` of the C API catches it with code of its own.
-/

namespace Luatier

namespace Result

variable {α β : Type}

def bind (r : Result α) (f : α → State → Result β) : Result β :=
  match r with
  | .ok v L => f v L
  | .error e L => .error e L

end Result

/--
What the program does not decide about a pointer into the stack: how many slots
the vector has storage for, and what is read where freed storage was.
-/
structure Storage where
  capacity : Nat
  freed : TValue
  freedClosure : Addr
  deriving DecidableEq, Repr

def Thread.adjustNny (th : Thread) (d : Int) : Thread :=
  { th with nny := th.nny + d }

namespace State

/-! ## Catching -/

def popFrame (a : Addr) (L : State) : State :=
  match (L.thread? a).bind (·.frames.getLast?) with
  | some fr => (L.closeUpvals a fr.base).updateThread a fun th =>
      { th with frames := th.frames.dropLast }
  | none => L

def popFrames (a : Addr) : Nat → State → State
  | 0, L => L
  | n + 1, L => popFrames a n (L.popFrame a)

def unwindFrames (L : State) (protectFrames : Nat) : State :=
  match L.currentThread? with
  | some (a, th) => L.popFrames a (th.frames.length - protectFrames)
  | none => L

/-- The value of an error: the object raised, or the message as a string. -/
def takeErrorObject (L : State) (fallback : String) : Result TValue :=
  match L.currentThread? with
  | some (a, th) =>
      if th.errObjSet then
        .ok th.errObj (L.updateThread a ({ · with errObjSet := false }))
      else (L.intern fallback).bind fun s L => .ok (.string s) L
  | none => (L.intern fallback).bind fun s L => .ok (.string s) L

/-! ## `pcall` and `xpcall` -/

variable (program handler : Program)

def adjustNny (L : State) (d : Int) : State := L.withCurrent (·.adjustNny d)

def propagateYieldable (L : State) (kind : ContKind) (ctx : TValue)
    (resBase : Nat) : State :=
  { L with
    yieldPending := true
    yieldContinue := true
    yieldContKind := kind
    yieldContCtx := ctx
    yieldContResBase := resBase }

/-- The `try` block: the call with the frame of `pcall` itself not counted. -/
def protectedCall (L : State) (f : TValue) (nargs : Nat) : Result Status :=
  match f with
  | .function cl =>
      match (L.adjustNny (-1)).callClosure program cl nargs none with
      | .ok st L => .ok st L
      | .error e L => .error e (L.adjustNny 1)
  | _ => .error "attempt to call a non-function value" L

def window (L : State) : List TValue :=
  (L.currentThread?.map (·.2.window)).getD []

def setWindow (L : State) (vs : List TValue) : State :=
  L.withCurrent (·.setWindow vs)

def protectedResults (L : State) : Result Int :=
  let L := L.adjustNny 1
  let results := L.window
  .ok (1 + results.length) (L.setWindow (.boolean true :: results))

def catchError (L : State) (protectFrames : Nat) (e : String) : Result TValue :=
  (L.unwindFrames protectFrames).takeErrorObject e

def basePcall (L : State) : Result Int :=
  match L.currentThread? with
  | none => .error "no thread" L
  | some (_, th) =>
      match th.window with
      | [] => .error "bad argument to pcall" L
      | f :: args =>
          match (L.setWindow (f :: args)).protectedCall program f args.length with
          | .ok .yield L =>
              .ok 0 (L.propagateYieldable .pCall .nil th.stackBase)
          | .ok .ok L => L.protectedResults
          | .error e L =>
              (L.catchError th.frames.length e).bind fun emsg L =>
                .ok 2 (L.setWindow [.boolean false, emsg])

def callHandler (L : State) (msgh emsg : TValue) (protectFrames : Nat) :
    Result Int :=
  match msgh with
  | .function cl =>
      match (L.setWindow [msgh, emsg]).callClosure handler cl 1 (some 1) with
      | .ok .yield L =>
          .ok 0 (L.propagateYieldable .xpCall msgh
            ((L.currentThread?.map (·.2.stackBase)).getD 0))
      | .ok .ok L =>
          .ok 2 (L.setWindow [.boolean false, L.window.headD .nil])
      | .error _ L =>
          .ok 2 ((L.unwindFrames protectFrames).setWindow [.boolean false, emsg])
  | _ => .ok 2 (L.setWindow [.boolean false, emsg])

def baseXpcall (L : State) : Result Int :=
  match L.currentThread? with
  | none => .error "no thread" L
  | some (_, th) =>
      match th.window with
      | f :: msgh :: args =>
          match (L.setWindow (f :: args)).protectedCall program f args.length with
          | .ok .yield L =>
              .ok 0 (L.propagateYieldable .xpCall msgh th.stackBase)
          | .ok .ok L => L.protectedResults
          | .error e L =>
              (L.catchError th.frames.length e).bind fun emsg L =>
                L.callHandler handler msgh emsg th.frames.length
      | _ => .error "bad argument to xpcall" L

/-! ## `lua_pcall` -/

def absindex (L : State) (idx : Int) : Int :=
  if 0 ≤ idx then idx else L.gettop + idx + 1

def at? (L : State) (idx : Int) : Option TValue :=
  let i := L.absindex idx
  if i ≤ 0 then none else L.window[i.toNat - 1]?

def settop (L : State) (idx : Int) : State :=
  L.withCurrent fun th => th.setAbsTop (th.stackBase + (L.absindex idx).toNat)

def push (L : State) (v : TValue) : State := L.withCurrent (·.push v)

def luaOk : Int := 0
def luaYield : Int := 1
def luaErrRun : Int := 2
def luaErrErr : Int := 5

def Status.code : Status → Int
  | .ok => luaOk
  | .yield => luaYield

/-- The `try` block of `lua_pcall`. -/
def apiCall (L : State) (funcIdx : Int) (nargs : Nat) (nresults : Wanted) :
    Result Int :=
  match L.at? funcIdx with
  | none => .error "invalid stack index" L
  | some (.function cl) =>
      (L.callClosure program cl nargs nresults).bind fun st L => .ok (Status.code st) L
  | some _ =>
      ((L.settop (funcIdx - 1)).intern "pcall: not a function").bind fun s L =>
        .ok luaErrRun (L.push (.string s))

def stackSize (L : State) : Nat := (L.currentThread?.map (·.2.stack.length)).getD 0

/-- The stack of the current thread has outgrown its storage from `L` to `L'`. -/
def movedFrom (L' L : State) (mem : Storage) : Bool :=
  L.stackSize < L'.stackSize && mem.capacity < L'.stackSize

def readHandler (L : State) (mem : Storage) (mh : Addr) : TValue :=
  if (L.push (.function mh)).movedFrom L mem then mem.freed else .function mh

/-- The message handler and the error value, for the call of the handler. -/
def placeHandler (L : State) (mem : Storage) (mh : Addr) (emsg : TValue) : State :=
  (L.push (L.readHandler mem mh)).push emsg

/-- `mh->as_closure()`, which comes after that. -/
def placedHandler (L : State) (mem : Storage) (mh : Addr) (emsg : TValue) : Addr :=
  if (L.placeHandler mem mh emsg).movedFrom L mem then mem.freedClosure else mh

variable (mem : Storage)

/-- The `catch` block of `lua_pcall`. -/
def apiCatch (L : State) (funcIdx errfunc : Int) (e : String) : Result Int :=
  (L.takeErrorObject e).bind fun emsg L =>
    let L := L.settop (funcIdx - 1)
    if 0 < errfunc then
      match L.at? errfunc with
      | none => .error "invalid stack index" L
      | some (.function mh) =>
          match (L.placeHandler mem mh emsg).callClosure handler
              (L.placedHandler mem mh emsg) 1 (some 1) with
          | .ok _ L => .ok luaErrRun L
          | .error e L =>
              (L.takeErrorObject e).bind fun emsg L =>
                .ok luaErrErr ((L.settop (funcIdx - 1)).push emsg)
      | some _ => .ok luaErrRun (L.push emsg)
    else .ok luaErrRun (L.push emsg)

def luaPcall (L : State) (nargs : Nat) (nresults : Wanted) (errfunc : Int) :
    Result Int :=
  let funcIdx : Int := L.gettop - nargs
  match L.apiCall program funcIdx nargs nresults with
  | .ok st L => .ok st L
  | .error e L => L.apiCatch handler mem funcIdx errfunc e

end State

end Luatier
