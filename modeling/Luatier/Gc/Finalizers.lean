import Luatier.Gc.Collector
import Luatier.Vm.Call

/-!
# Running finalizers

The finalizers that a sweep found due are called on the interrupted thread,
above its live registers.
-/

namespace Luatier

namespace Thread

def markFinalizer (th : Thread) (finalizer : Bool) : Thread :=
  { th with
    frames := th.frames.modify (th.frames.length - 1) ({ · with finalizer }) }

end Thread

namespace State

def threadLiveTop (L : State) (th : Thread) : Nat :=
  max (max th.top (L.luaFrameHighWater th)) th.stackBase

def setAbsTop (L : State) (a : Addr) (absIdx : Nat) : State :=
  L.updateThread a (·.setAbsTop absIdx)

/-- `gc_object_value`. -/
def gcObjectValue (L : State) (a : Addr) : TValue :=
  match L.object? a with
  | some (.table _) => .table a
  | some (.userdata _) => .userdata a
  | _ => .nil

def setRunningFinalizer (L : State) (runningFinalizer : Bool) : State :=
  { L with gc := { L.gc with runningFinalizer } }

/-- The list of objects to finalize is taken over by `run_finalizers`. -/
def takeFinalize (L : State) : State :=
  { L with gc := { L.gc with finalize := [], runningFinalizer := true } }

def finalizerOf (L : State) (a : Addr) : TValue :=
  (L.getMetamethod (L.gcObjectValue a) .gc).1

/-- Flag an object and look its finalizer up; the call is left to the program. -/
def startFinalizer (L : State) (a : Addr) : State :=
  let L := { L with gc := { L.gc with
    finalized := Function.update L.gc.finalized a true } }
  (L.getMetamethod (L.gcObjectValue a) .gc).2

variable (program : Program)

def enterFinalizer (L : State) (a : Addr) (f : Addr) (obj : TValue) : State :=
  L.updateThread a fun th =>
    let live := L.threadLiveTop th
    ((({ th.ensureStack (live + 4) with top := live }).push (.function f)).push
      obj).markFinalizer true

def callFinalizer (L : State) (a : Addr) (th : Thread) (f : Addr) (obj : TValue) :
    Outcome :=
  let unmark (L : State) : State :=
    if th.frames.isEmpty then L else L.updateThread a (·.markFinalizer false)
  match (L.enterFinalizer a f obj).callClosure program f 1 (some 0) with
  | .error e L => .error e (unmark L)
  | .ok _ L' => .ok () ((unmark L').setAbsTop a (L.threadLiveTop th))

def resetTop (L : State) : State :=
  match L.currentThread? with
  | some (a, th) => L.setAbsTop a (L.threadLiveTop th)
  | none => L

def gcError (e : String) : String :=
  if "error in __gc".toList <:+: e.toList then e
  else "error in __gc (" ++ e ++ ")"

def finalizeOne (firstError : String) (L : State) (o : Addr) : String × State :=
  match L.finalizerOf o, L.currentThread? with
  | .function f, some (a, th) =>
      match (L.startFinalizer o).callFinalizer program a th f (L.gcObjectValue o) with
      | .ok _ L => (firstError, L)
      | .error e L =>
          (if firstError.isEmpty then gcError e else firstError, L.resetTop)
  | _, _ => (firstError, L.startFinalizer o)

def runPending : String × State → List Addr → String × State :=
  List.foldl fun r o => finalizeOne program r.1 r.2 o

def dropErrObj (L : State) : State :=
  match L.current with
  | some a => L.updateThread a ({ · with errObjSet := false })
  | none => L

def runFinalizers (L : State) : Outcome :=
  if L.gc.finalize = [] then .ok () L
  else
    let r := runPending program ("", L.takeFinalize) L.gc.finalize
    let L' := r.2.setRunningFinalizer false
    if r.1.isEmpty then .ok () L' else .error r.1 L'.dropErrObj

end State

end Luatier
