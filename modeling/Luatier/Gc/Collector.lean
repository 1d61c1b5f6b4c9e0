import Luatier.Gc.Sweep

/-!
# The collector

`step` advances a cycle by one phase or one gray object; `fullGc` completes
the cycle in progress and runs another.  The finalizers at the end of a sweep
run the program's own code, which the collector takes as a parameter.
-/

namespace Luatier

open Tricolor

/-- How a call of native code ends; an exception keeps the state it left. -/
abbrev Outcome := EStateM.Result String State Unit

namespace State

def withPhase (L : State) (phase : GcPhase) : State :=
  { L with gc := { L.gc with phase } }

def clearGray (L : State) : State :=
  L.withMarks { L.gc.marks with gray := [] }

def setCollecting (L : State) (collecting : Bool) : State :=
  { L with gc := { L.gc with collecting } }

def barrier (L : State) (parent : Addr) (child : TValue) : State :=
  if L.gc.marks.color parent = .black then L.markValue child else L

/-- `GC::link`: a new cell is born with the white of this cycle. -/
def link (L : State) (a : Addr) (obj : Object) : State :=
  { L with
    heap := (a, obj) :: L.heap
    gc := { L.gc with
      marks := { L.gc.marks with
        color := Function.update L.gc.marks.color a (.white L.gc.white) }
      finalized := Function.update L.gc.finalized a false } }

variable (runFinalizers : State → Outcome)

def step (L : State) : Outcome :=
  match L.gc.phase with
  | .pause => .ok () (L.clearGray.markRoots.withPhase .propagate)
  | .propagate =>
      if L.gc.marks.gray = [] then .ok () (L.withPhase .sweep)
      else .ok () L.propagateOne
  | .sweep =>
      match runFinalizers L.sweepObjects with
      | .ok _ L => .ok () (L.withPhase .pause)
      | .error e L => .error e L

/-- `while (phase_ != Pause) step()`. -/
def stepUntilPause : Nat → State → Outcome
  | 0, L => .error "out of fuel" L
  | fuel + 1, L =>
      if L.gc.phase = .pause then .ok () L
      else
        match L.step runFinalizers with
        | .ok _ L => stepUntilPause fuel L
        | .error e L => .error e L

/-- The body of `full_gc` under its `collecting_` guard. -/
def fullCycles (fuel : Nat) (L : State) : Outcome :=
  match L.stepUntilPause runFinalizers fuel with
  | .error e L => .error e L
  | .ok _ L =>
      match (L.clearGray.withPhase .pause).step runFinalizers with
      | .error e L => .error e L
      | .ok _ L => L.stepUntilPause runFinalizers fuel

def fullGc (fuel : Nat) (L : State) : Outcome :=
  if L.gc.collecting then .ok () L
  else
    match (L.setCollecting true).fullCycles runFinalizers fuel with
    | .ok _ L => .ok () (L.setCollecting false)
    | .error e L =>
        .error e ((L.setCollecting false).withPhase .pause).clearGray

end State

end Luatier
