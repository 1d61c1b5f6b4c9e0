import Luatier.Vm.Protected

/-!
# Coroutines

`coroutine.resume` makes another thread the current one, runs it until it
yields, returns or raises, and moves values between the two stacks.
-/

namespace Luatier

namespace Thread

def startCoroutine (co : Thread) (args : List TValue) : Thread :=
  let f := co.slot 0
  let co := { co with stack := List.replicate 64 .nil, frames := [], top := 0 }
  { args.foldl push (co.push f) with status := .running }

/-- The frame of `coroutine.yield` goes, and its results are the arguments. -/
def continueCoroutine (co : Thread) (args : List TValue) : Thread :=
  let frames :=
    match co.frames.getLast? with
    | some fr =>
        if fr.kind = .cApi ∧ fr.proto = none then co.frames.dropLast else co.frames
    | none => co.frames
  let dest := co.yieldFuncIdx
  let nplace := co.yieldNresults.getD args.length
  let co := ({ co with frames }.ensureStack (dest + nplace + 8)).overwrite fun i =>
    if dest ≤ i ∧ i < dest + nplace then some (args.getD (i - dest) .nil) else none
  { co with top := dest + nplace, status := .running }

def results (co : Thread) : List TValue := (List.range co.top).map co.slot

end Thread

namespace State

def withCurrentThread (L : State) (current : Addr) : State :=
  { L with current := some current }

/-- `return_ok`: back on the thread that resumed, with `true` and the results. -/
def returnOk (L : State) (a : Addr) (results : List TValue) : Result Int :=
  .ok (1 + results.length)
    ((L.withCurrentThread a).setWindow (.boolean true :: results))

def returnErr (L : State) (a : Addr) (msg : String) : Result Int :=
  ((L.withCurrentThread a).intern msg).bind fun s L =>
    .ok 2 (L.setWindow [.boolean false, .string s])

def resumeDone (L : State) (a co : Addr) : Status → Result Int
  | .yield =>
      let results := ((L.thread? co).map (·.yieldVals)).getD []
      (L.updateThread co fun th =>
        { th with status := .suspended, yieldVals := [] }).returnOk a results
  | .ok =>
      let results := ((L.thread? co).map Thread.results).getD []
      (L.updateThread co ({ · with status := .dead })).returnOk a results

def deadObject (L : State) (co : Addr) (e : String) : Result TValue :=
  match L.thread? co with
  | some th =>
      if th.errObjSet then .ok th.errObj L
      else (L.intern e).bind fun s L => .ok (.string s) L
  | none => (L.intern e).bind fun s L => .ok (.string s) L

def resumeDead (L : State) (a co : Addr) (e : String) : Result Int :=
  ((L.withCurrentThread a).deadObject co e).bind fun emsg L =>
    .ok 2 ((L.updateThread co fun th =>
      { th with errObjSet := false, status := .dead }).setWindow
        [.boolean false, emsg])

def hasContinue (L : State) (co : Addr) : Bool :=
  ((L.thread? co).map fun th => th.frames.any (·.kind == .continue)).getD false

def runCoroutine (start : Addr → Nat → State → Result Status)
    (goOn : Bool → String → State → Result Status) (L : State) (co : Addr)
    (th : Thread) (args : List TValue) : Result Status :=
  match th.status with
  | .fresh =>
      let L := L.updateThread co (·.startCoroutine args)
      match th.slot 0 with
      | .function cl => start cl args.length L
      | _ => .error "coroutine main is not a function" L
  | _ => goOn true "" (L.updateThread co (·.continueCoroutine args))

/-- What is left of `co_resume` when the run of the coroutine is over. -/
def resumeExit (goOn : Bool → String → State → Result Status) (a co : Addr) :
    Result Status → Result Int
  | .ok st L => L.resumeDone a co st
  | .error e L =>
      if L.hasContinue co then
        match goOn false e L with
        | .ok st L => L.resumeDone a co st
        | .error e L => L.resumeDead a co e
      else L.resumeDead a co e

/--
`co_resume`.  Running the code of a coroutine is a parameter: `start` calls its
body, and `goOn` is `resume_after_yield`.
-/
def coResume (start : Addr → Nat → State → Result Status)
    (goOn : Bool → String → State → Result Status) (L : State) : Result Int :=
  match L.currentThread? with
  | none => .error "no thread" L
  | some (a, from') =>
      match from'.window with
      | .thread co :: args =>
          match L.thread? co with
          | none => .error "no thread" L
          | some th =>
              match th.status with
              | .dead | .error => L.returnErr a "cannot resume dead coroutine"
              | .running => L.returnErr a "cannot resume non-suspended coroutine"
              | .fresh | .suspended =>
                  if maxCcalls ≤ from'.nCcalls + 1 then
                    L.returnErr a "C stack overflow"
                  else
                    let L := (L.updateThread co
                      ({ · with nCcalls := from'.nCcalls + 1 })).withCurrentThread co
                    Result.unwind (decrCcalls · co)
                      (resumeExit goOn a co (L.runCoroutine start goOn co th args))
      | [] => .error "invalid stack index" L
      | _ => .error "coroutine.resume: thread expected" L

def coroYield (L : State) : Result Int :=
  match L.currentThread? with
  | none => .error "no thread" L
  | some (a, th) =>
      if L.main = some a then
        .error "attempt to yield from outside a coroutine" L
      else if 1 < th.nny then
        .error "attempt to yield across a C-call boundary" L
      else
        .ok L.gettop ({ L with yieldPending := true }.updateThread a
          ({ · with status := .suspended }))

end State

end Luatier
