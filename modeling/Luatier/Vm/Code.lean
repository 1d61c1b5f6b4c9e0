import Luatier.Vm.Coroutine

/-!
# Code that calls

What a native function or an activation of the interpreter does in one run:
steps of its own, and the calls between them.  The calls are those of the
source; a step may do anything within its window of the stack.
-/

namespace Luatier

namespace Thread

def base (th : Thread) : Nat := (th.frames.getLast?.map (·.base)).getD 0

def setSlots (th : Thread) (dest : Nat) (vs : List TValue) : Thread :=
  th.overwrite fun i => if dest ≤ i then vs[i - dest]? else none

def insertMm (th : Thread) (funcIdx nargs : Nat) (mm : Addr) : Thread :=
  let th := (th.ensureStack (funcIdx + 2 + nargs)).move (funcIdx + 1) funcIdx
    (nargs + 1)
  { th.setSlot funcIdx (.function mm) with top := funcIdx + 2 + nargs }

def raiseTop (th : Thread) (callBase nargs : Nat) : Thread :=
  { th.ensureStack (callBase + 1 + nargs + 8) with top := callBase + 1 + nargs }

def slideUp (th : Thread) (tmp src nargs : Nat) : Thread :=
  (th.ensureStack (tmp + nargs + 1 + 8)).move tmp src (nargs + 1)

def slideDown (th : Thread) (dest tmp nargs : Nat) : Thread :=
  { (th.ensureStack (dest + 1 + nargs + 8)).move dest tmp (nargs + 1) with
    top := dest + 1 + nargs
    frames := th.frames.dropLast }

def copyIterator (th : Thread) (cb c : Nat) : Thread :=
  { (th.ensureStack (cb + 3 + c)).move cb (cb - 3) 3 with top := cb + 3 }

def placeResults (th : Thread) (dest src nret placed : Nat) : Thread :=
  let th := { th.ensureStack (max (src + nret) (dest + placed) + 8) with
    frames := th.frames.dropLast }
  { (th.move dest src nret).fillNil (dest + nret) (dest + placed) with
    top := dest + placed }

/-- The function and the arguments of a metamethod, above all live registers. -/
def pushMm (th : Thread) (callBase : Nat) (mm : TValue) (args : List TValue)
    (nout : Nat) : Thread :=
  { (th.ensureStack (callBase + 1 + args.length + nout + 8)).setSlots callBase
      (mm :: args) with
    top := callBase + 1 + args.length }

def setTop (th : Thread) (top : Nat) : Thread := { th with top }

end Thread

namespace State

/-! ## Instructions that call -/

def liveRegsTop (L : State) (th : Thread) : Nat :=
  th.frames.foldl (fun limit fr =>
    match fr.proto.bind L.proto? with
    | some p => max limit (fr.base + p.maxstack)
    | none =>
        match fr.cl.bind L.closure? with
        | some cl =>
            match cl.proto with
            | none => max limit (fr.base + 1)
            | some p => max limit (fr.base + ((L.proto? p).map (·.maxstack)).getD 0)
        | none => limit) th.top

variable (program : Program)

def callFlat (L : State) (a : Addr) (f : Addr) (funcIdx nargs : Nat)
    (nresults : Wanted) (isTailcall : Bool) : Result Status :=
  match L.closure? f with
  | none => .error "no closure" L
  | some c =>
      match c.proto with
      | none => L.runCCall program a f funcIdx nargs nresults isTailcall
      | some p => (L.pushLuaFrame a f p funcIdx nargs nresults isTailcall).bind
          fun _ L => .ok .ok L

def register (L : State) (a : Addr) (i : Nat) : TValue :=
  ((L.thread? a).map (·.slot i)).getD .nil

/-- What `meta_call` calls, with its number of arguments. -/
def metaCallee (L : State) (a : Addr) (funcIdx nargs : Nat) :
    Option (Addr × Nat) × State :=
  match L.register a funcIdx with
  | .function cl => (some (cl, nargs), L)
  | f =>
      match L.getMetamethod f .call with
      | (.function mm, L) =>
          (some (mm, nargs + 1), L.updateThread a (·.insertMm funcIdx nargs mm))
      | (_, L) => (none, L)

/-- `meta_call`; `e` is the text of the type error. -/
def metaCall (L : State) (a : Addr) (funcIdx nargs : Nat) (nresults : Wanted)
    (e : String) : Result Status :=
  match L.metaCallee a funcIdx nargs with
  | (some (cl, nargs), L) => L.callClosure program cl nargs nresults
  | (none, L) => .error e L

/-- What `meta_call` returns is dropped by the instructions. -/
def metaCallOp (L : State) (a : Addr) (funcIdx nargs : Nat) (nresults : Wanted)
    (e : String) : Result Status :=
  (L.metaCall program a funcIdx nargs (some (nresults.getD 1)) e).bind
    fun _ L => .ok .ok L

def opCall (L : State) (a : Addr) (th : Thread) (ra nargs : Nat)
    (nresults : Wanted) (e : String) : Result Status :=
  let callBase := th.base + ra
  let L := L.updateThread a (·.raiseTop callBase nargs)
  match L.register a callBase with
  | .function f => L.callFlat program a f callBase nargs nresults false
  | _ => L.metaCallOp program a callBase nargs nresults e

/--
The function and the arguments of a tail call slide down onto the frame, which
goes.  Its upvalues are closed while they are still above.
-/
def slideCall (L : State) (a : Addr) (th : Thread) (ra nargs : Nat) : State :=
  let dest := th.base
  let tmp := L.liveRegsTop th
  let L := L.updateThread a (·.slideUp tmp (dest + ra) nargs)
  (L.closeUpvals a dest).updateThread a (·.slideDown dest tmp nargs)

def opTailcall (L : State) (a : Addr) (th : Thread) (ra nargs : Nat) (e : String) :
    Result Status :=
  let nresults := (th.frames.getLast?.map (·.expectedResults)).getD none
  let dest := th.base
  let L := L.slideCall a th ra nargs
  match L.register a dest with
  | .function f => L.callFlat program a f dest nargs nresults true
  | _ => L.metaCallOp program a dest nargs nresults e

def opTforcall (L : State) (a : Addr) (th : Thread) (ra c : Nat) (e : String) :
    Result Status :=
  let cb := th.base + ra + 3
  let L := L.updateThread a (·.copyIterator cb c)
  match L.register a cb with
  | .function f => L.callClosure program f 2 (some c)
  | _ => L.metaCallOp program a cb 2 (some c) e

def opReturn (L : State) (a : Addr) (th : Thread) (ra nret : Nat) : State :=
  let dest := th.base
  let src := th.base + ra
  let placed := ((th.frames.getLast?.map (·.expectedResults)).getD none).getD nret
  (L.closeUpvals a dest).updateThread a (·.placeResults dest src nret placed)

/-- `invoke_mm`: a metamethod written in Lua runs in this interpreter. -/
def invokeMm (L : State) (a : Addr) (th : Thread) (mm : TValue)
    (args : List TValue) (nout : Nat) : Result Status :=
  let callBase := L.liveRegsTop th
  match mm with
  | .function f =>
      (L.updateThread a (·.pushMm callBase mm args nout)).callFlat program a f
        callBase args.length (some nout) false
  | _ => .error "invoke_mm: function expected" L

/-- `call_mm`: a metamethod runs to its end, and the top is as before. -/
def callMm (L : State) (a : Addr) (th : Thread) (mm : TValue)
    (args : List TValue) (nout : Nat) : Result Status :=
  let callBase := L.liveRegsTop th
  match mm with
  | .function f =>
      ((L.updateThread a (·.pushMm callBase mm args nout)).callClosure program f
        args.length (some nout)).bind fun _ L =>
          .ok .ok (L.updateThread a (·.setTop th.top))
  | _ => .error "call_mm: function expected" L

/-! ## Steps -/

def jump (frames : List CallFrame) (pc : Option Nat) : List CallFrame :=
  frames.dropLast ++
    (frames.getLast?.map fun fr => { fr with savedPc := pc.getD fr.savedPc }).toList

/-- A step between two calls: it works from slot `lim` on, and has these frames. -/
structure Confined (a : Addr) (th : Thread) (lim : Nat) (frames : List CallFrame)
    (L L' : State) : Prop where
  untouched : Untouched a lim th.frames L L'
  thread : ∃ th', L'.thread? a = some th' ∧ th'.frames = frames ∧
    th'.stackBase = th.stackBase ∧ th'.nny = th.nny ∧ th'.nCcalls = th.nCcalls ∧
    th'.status = th.status ∧ min lim th.top ≤ th'.top

structure Elsewhere (co : Addr) (L L' : State) : Prop where
  current : L'.current = L.current
  main : L'.main = L.main
  pending : L.yieldPending = false → L'.yieldPending = false
  protos : ∀ p, (L.proto? p).isSome = true → (L'.proto? p).isSome = true
  others : ∀ b ≠ co, L.Running b → Idle b L L'

end State

structure NativeStep where
  run : State → State
  confined : ∀ {L : State} {a : Addr} {th : Thread}, L.current = some a →
    L.thread? a = some th → State.Confined a th th.stackBase th.frames L (run L)

/-- An instruction, which works on the registers of the frame on top. -/
structure LuaStep where
  run : State → State
  confined : ∀ {L : State} {a : Addr} {th : Thread}, L.current = some a →
    L.thread? a = some th →
    ∃ pc, State.Confined a th th.base (State.jump th.frames pc) L (run L)

structure CoroutineRun where
  run : State → Result Status
  elsewhere : ∀ {L : State} {co : Addr}, L.current = some co →
    State.Elsewhere co L (run L).after

/-! ## Code -/

mutual

/-- A native function from some point on. -/
inductive Native where
  | ret (n : Int)
  | raise (e : String)
  | step (s : NativeStep) (k : Native)
  | call (f : Addr) (args : List TValue) (nresults : Wanted) (callee : Callee)
      (k : Native)
  | luaPcall (f : TValue) (args : List TValue) (nresults : Wanted) (errfunc : Int)
      (mem : Storage) (callee handler : Callee) (k : Native)
  | pcall (callee : Callee)
  | xpcall (callee handler : Callee)
  | resume (start goOn again : CoroutineRun)

/--
The instructions that an activation of the interpreter has yet to run; `e` is
the text of a type error.
-/
inductive Lua where
  | raise (e : String)
  | step (s : LuaStep) (k : Lua)
  | call (ra nargs : Nat) (nresults : Wanted) (e : String) (callee : Callee)
      (k : Lua)
  | tailcall (ra nargs : Nat) (e : String) (callee : Callee) (k : Lua)
  | tforcall (ra c : Nat) (e : String) (callee : Callee) (k : Lua)
  | ret (ra nret : Nat) (k : Lua)
  | invokeMm (mm : TValue) (args : List TValue) (nout : Nat) (callee : Callee)
      (k : Lua)
  | callMm (mm : TValue) (args : List TValue) (nout : Nat) (callee : Callee)
      (k : Lua)

/-- What the function that is called does, be it native or not. -/
inductive Callee where
  | mk (native : Native) (lua : Lua)

end

namespace State

/-- The loop goes on: the frames are deep enough, and the one on top is Lua's. -/
def interpreting? (L : State) (entryDepth : Nat) : Option (Addr × Thread) :=
  L.currentThread?.filter fun (_, th) =>
    entryDepth ≤ th.frames.length && th.frames.getLast?.any fun fr =>
      fr.kind == .interpLua && (fr.proto.bind L.proto?).isSome

def frameDepth (L : State) : Nat :=
  (L.currentThread?.map (·.2.frames.length)).getD 0

end State

namespace Result

def andThen (r : Result Status) (k : State → Result Status) : Result Status :=
  match r with
  | .ok .ok L => k L
  | r => r

end Result

mutual

def Native.exec : Native → State → Result Int
  | .ret n, L => .ok n L
  | .raise e, L => .error e L
  | .step s k, L => k.exec (s.run L)
  | .call f args nresults callee k, L =>
      (((.function f :: args).foldl State.push L).callClosure callee.program f
        args.length nresults).bind fun _ L => k.exec L
  | .luaPcall f args nresults errfunc mem callee handler k, L =>
      (((f :: args).foldl State.push L).luaPcall callee.program handler.program mem
        args.length nresults errfunc).bind fun _ L => k.exec L
  | .pcall callee, L => L.basePcall callee.program
  | .xpcall callee handler, L => L.baseXpcall callee.program handler.program
  | .resume start goOn again, L =>
      L.coResume (fun _ _ => start.run)
        (fun ok _ => if ok then goOn.run else again.run)

def Lua.run : Lua → Nat → State → Result Status
  | .raise e, entryDepth, L =>
      match L.interpreting? entryDepth with
      | none => .ok .ok L
      | some _ => .error e L
  | .step s k, entryDepth, L =>
      match L.interpreting? entryDepth with
      | none => .ok .ok L
      | some _ => k.run entryDepth (s.run L)
  | .call ra nargs nresults e callee k, entryDepth, L =>
      match L.interpreting? entryDepth with
      | none => .ok .ok L
      | some (a, th) =>
          (L.opCall callee.program a th ra nargs nresults e).andThen
            (k.run entryDepth)
  | .tailcall ra nargs e callee k, entryDepth, L =>
      match L.interpreting? entryDepth with
      | none => .ok .ok L
      | some (a, th) =>
          (L.opTailcall callee.program a th ra nargs e).andThen (k.run entryDepth)
  | .tforcall ra c e callee k, entryDepth, L =>
      match L.interpreting? entryDepth with
      | none => .ok .ok L
      | some (a, th) =>
          (L.opTforcall callee.program a th ra c e).andThen (k.run entryDepth)
  | .ret ra nret k, entryDepth, L =>
      match L.interpreting? entryDepth with
      | none => .ok .ok L
      | some (a, th) => k.run entryDepth (L.opReturn a th ra nret)
  | .invokeMm mm args nout callee k, entryDepth, L =>
      match L.interpreting? entryDepth with
      | none => .ok .ok L
      | some (a, th) =>
          (L.invokeMm callee.program a th mm args nout).andThen (k.run entryDepth)
  | .callMm mm args nout callee k, entryDepth, L =>
      match L.interpreting? entryDepth with
      | none => .ok .ok L
      | some (a, th) =>
          (L.callMm callee.program a th mm args nout).andThen (k.run entryDepth)

def Callee.program : Callee → Program
  | .mk native lua => ⟨fun L => lua.run L.frameDepth L, fun _ L => native.exec L⟩

end

/-! ## Counts that are not taken back -/

namespace Leaks

variable (leaks : Leaks)

def callFlat (L : State) (a : Addr) (f : Addr) (funcIdx nargs : Nat)
    (isTailcall : Bool) : Nat :=
  match L.closure? f with
  | none => 0
  | some c =>
      match c.proto with
      | none => leaks.runCCall L a f funcIdx nargs isTailcall
      | some _ => 0

def metaCall (L : State) (a : Addr) (funcIdx nargs : Nat) (nresults : Wanted) : Nat :=
  match L.metaCallee a funcIdx nargs with
  | (some (cl, nargs), L) => leaks.callClosure L cl nargs nresults
  | (none, _) => 0

def opCall (L : State) (a : Addr) (th : Thread) (ra nargs : Nat)
    (nresults : Wanted) : Nat :=
  let callBase := th.base + ra
  let L := L.updateThread a (·.raiseTop callBase nargs)
  match L.register a callBase with
  | .function f => leaks.callFlat L a f callBase nargs false
  | _ => leaks.metaCall L a callBase nargs (some (nresults.getD 1))

def opTailcall (L : State) (a : Addr) (th : Thread) (ra nargs : Nat) : Nat :=
  let nresults := (th.frames.getLast?.map (·.expectedResults)).getD none
  let dest := th.base
  let L := L.slideCall a th ra nargs
  match L.register a dest with
  | .function f => leaks.callFlat L a f dest nargs true
  | _ => leaks.metaCall L a dest nargs (some (nresults.getD 1))

def opTforcall (L : State) (a : Addr) (th : Thread) (ra c : Nat) : Nat :=
  let cb := th.base + ra + 3
  let L := L.updateThread a (·.copyIterator cb c)
  match L.register a cb with
  | .function f => leaks.callClosure L f 2 (some c)
  | _ => leaks.metaCall L a cb 2 (some c)

def invokeMm (L : State) (a : Addr) (th : Thread) (mm : TValue)
    (args : List TValue) (nout : Nat) : Nat :=
  let callBase := L.liveRegsTop th
  match mm with
  | .function f =>
      leaks.callFlat (L.updateThread a (·.pushMm callBase mm args nout)) a f
        callBase args.length false
  | _ => 0

def callMm (L : State) (a : Addr) (th : Thread) (mm : TValue)
    (args : List TValue) (nout : Nat) : Nat :=
  let callBase := L.liveRegsTop th
  match mm with
  | .function f =>
      leaks.callClosure (L.updateThread a (·.pushMm callBase mm args nout)) f
        args.length (some nout)
  | _ => 0

def protectedCall (L : State) (f : TValue) (nargs : Nat) : Nat :=
  match f with
  | .function cl => leaks.callClosure (L.adjustNny (-1)) cl nargs none
  | _ => 0

def basePcall (L : State) : Nat :=
  match L.window with
  | [] => 0
  | f :: args => leaks.protectedCall (L.setWindow (f :: args)) f args.length

def callHandler (L : State) (msgh emsg : TValue) : Nat :=
  match msgh with
  | .function cl => leaks.callClosure (L.setWindow [msgh, emsg]) cl 1 (some 1)
  | _ => 0

variable (program : Program) (handler : Leaks)

def baseXpcall (L : State) : Nat :=
  match L.currentThread? with
  | none => 0
  | some (_, th) =>
      match th.window with
      | f :: msgh :: args =>
          leaks.protectedCall (L.setWindow (f :: args)) f args.length +
          match (L.setWindow (f :: args)).protectedCall program f args.length with
          | .error e L =>
              match L.catchError th.frames.length e with
              | .ok emsg L => handler.callHandler L msgh emsg
              | .error _ _ => 0
          | .ok _ _ => 0
      | _ => 0

def apiCall (L : State) (funcIdx : Int) (nargs : Nat) (nresults : Wanted) : Nat :=
  match L.at? funcIdx with
  | some (.function cl) => leaks.callClosure L cl nargs nresults
  | _ => 0

variable (mem : Storage)

def apiCatch (L : State) (funcIdx errfunc : Int) (e : String) : Nat :=
  match L.takeErrorObject e with
  | .error _ _ => 0
  | .ok emsg L =>
      let L := L.settop (funcIdx - 1)
      if 0 < errfunc then
        match L.at? errfunc with
        | some (.function mh) =>
            leaks.callClosure (L.placeHandler mem mh emsg) (L.placedHandler mem mh emsg)
              1 (some 1)
        | _ => 0
      else 0

def luaPcall (L : State) (nargs : Nat) (nresults : Wanted) (errfunc : Int) : Nat :=
  let funcIdx : Int := L.gettop - nargs
  leaks.apiCall L funcIdx nargs nresults +
  match L.apiCall program funcIdx nargs nresults with
  | .ok _ _ => 0
  | .error e L => handler.apiCatch mem L funcIdx errfunc e

end Leaks

namespace Result

def leaksAfter {α : Type} (r : Result α) (k : State → Nat) : Nat :=
  match r with
  | .ok _ L => k L
  | .error _ _ => 0

end Result

mutual

def Native.leaks : Native → State → Nat
  | .ret _, _ => 0
  | .raise _, _ => 0
  | .step s k, L => k.leaks (s.run L)
  | .call f args nresults callee k, L =>
      let L := (.function f :: args).foldl State.push L
      callee.leaks.callClosure L f args.length nresults +
        (L.callClosure callee.program f args.length nresults).leaksAfter k.leaks
  | .luaPcall f args nresults errfunc mem callee handler k, L =>
      let L := (f :: args).foldl State.push L
      callee.leaks.luaPcall callee.program handler.leaks mem L args.length nresults
          errfunc +
        (L.luaPcall callee.program handler.program mem args.length nresults
          errfunc).leaksAfter k.leaks
  | .pcall callee, L => callee.leaks.basePcall L
  | .xpcall callee handler, L =>
      callee.leaks.baseXpcall callee.program handler.leaks L
  | .resume _ _ _, _ => 0

def Lua.leaks : Lua → Nat → State → Nat
  | .raise _, _, _ => 0
  | .step s k, entryDepth, L =>
      match L.interpreting? entryDepth with
      | none => 0
      | some _ => k.leaks entryDepth (s.run L)
  | .call ra nargs nresults e callee k, entryDepth, L =>
      match L.interpreting? entryDepth with
      | none => 0
      | some (a, th) => callee.leaks.opCall L a th ra nargs nresults +
          (L.opCall callee.program a th ra nargs nresults e).leaksAfter
            (k.leaks entryDepth)
  | .tailcall ra nargs e callee k, entryDepth, L =>
      match L.interpreting? entryDepth with
      | none => 0
      | some (a, th) => callee.leaks.opTailcall L a th ra nargs +
          (L.opTailcall callee.program a th ra nargs e).leaksAfter
            (k.leaks entryDepth)
  | .tforcall ra c e callee k, entryDepth, L =>
      match L.interpreting? entryDepth with
      | none => 0
      | some (a, th) => callee.leaks.opTforcall L a th ra c +
          (L.opTforcall callee.program a th ra c e).leaksAfter (k.leaks entryDepth)
  | .ret ra nret k, entryDepth, L =>
      match L.interpreting? entryDepth with
      | none => 0
      | some (a, th) => k.leaks entryDepth (L.opReturn a th ra nret)
  | .invokeMm mm args nout callee k, entryDepth, L =>
      match L.interpreting? entryDepth with
      | none => 0
      | some (a, th) => callee.leaks.invokeMm L a th mm args nout +
          (L.invokeMm callee.program a th mm args nout).leaksAfter
            (k.leaks entryDepth)
  | .callMm mm args nout callee k, entryDepth, L =>
      match L.interpreting? entryDepth with
      | none => 0
      | some (a, th) => callee.leaks.callMm L a th mm args nout +
          (L.callMm callee.program a th mm args nout).leaksAfter
            (k.leaks entryDepth)

/-- The calls whose count is not taken back: those that overflow the C stack. -/
def Callee.leaks : Callee → Leaks
  | .mk native lua => ⟨fun L => lua.leaks L.frameDepth L, fun _ L => native.leaks L⟩

end

end Luatier
