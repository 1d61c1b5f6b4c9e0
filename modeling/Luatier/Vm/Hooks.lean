import Luatier.Vm.Code

/-!
# Debug hooks

A hook is called on the interrupted thread, above all that is live there.
`allowhook` is lowered meanwhile, so no event of the thread starts another
hook, and the calls inside one are those of code without hooks.
-/

namespace Luatier

/-- What the events themselves keep of `DebugHookState`. -/
structure Hook where
  mask : Nat := 0
  count : Int := 0
  hookcount : Int := 0
  oldpc : Nat := 0
  deriving DecidableEq, Repr

namespace Hook

def maskCall : Nat := 1
def maskRet : Nat := 2
def maskLine : Nat := 4
def maskCount : Nat := 8

def wants (h : Hook) (bit : Nat) : Bool := h.mask &&& bit != 0

end Hook

namespace Thread

def interruptedIdx (th : Thread) : Option Nat :=
  if th.frames.isEmpty then none else some (th.frames.length - 1)

def setHooked (frames : List CallFrame) (idx : Option Nat) (hooked : Bool) :
    List CallFrame :=
  match idx with
  | none => frames
  | some i => frames.modify i ({ · with hooked })

def enterHook (th : Thread) (hookBase : Nat) (func event : Addr) (line : Int) :
    Thread :=
  { (th.ensureStack (hookBase + 3)).setSlots hookBase
      [.function func, .string event,
        if 0 ≤ line then .integer (Int64.ofInt line) else .nil] with
    top := hookBase + 3
    frames := setHooked th.frames th.interruptedIdx true
    allowhook := th.allowhook - 1 }

def leaveHook (th : Thread) (idx : Option Nat) (savedTop : Nat) : Thread :=
  { th with
    frames := setHooked th.frames idx false
    allowhook := th.allowhook + 1
    top := savedTop }

end Thread

namespace State

def allowsHook (L : State) (a : Addr) : Bool :=
  (L.thread? a).any fun th => th.hookFunc.isSome && decide (0 < th.allowhook)

variable (program : Program)

/-- The `try` block.  The place of the call is computed as in `live_regs_top`. -/
def runHook (L : State) (a : Addr) (th : Thread) (func event : Addr) (line : Int) :
    Result Status :=
  (L.updateThread a (·.enterHook (L.liveRegsTop th) func event line)).callClosure
    program func 2 (some 0)

def debugCallHook (L : State) (a : Addr) (event : String) (line : Int) :
    Result Unit :=
  match L.thread? a with
  | none => .ok () L
  | some th =>
      match th.hookFunc with
      | none => .ok () L
      | some func =>
          if th.allowhook ≤ 0 then .ok () L
          else
            (L.intern event).bind fun ev L =>
              Result.unwind (·.updateThread a (·.leaveHook th.interruptedIdx th.top))
                ((L.runHook program a th func ev line).bind fun _ L => .ok () L)

def debugFrameHook (L : State) (a : Addr) (h : Hook) (bit : Nat) (event : String) :
    Result Unit :=
  if h.wants bit && L.allowsHook a then L.debugCallHook program a event (-1)
  else .ok () L

def debugOnCall (L : State) (a : Addr) (h : Hook) : Result Unit :=
  L.debugFrameHook program a h Hook.maskCall "call"

def debugOnTailcall (L : State) (a : Addr) (h : Hook) : Result Unit :=
  L.debugFrameHook program a h Hook.maskCall "tail call"

def debugReturnHook (L : State) (a : Addr) (h : Hook) : Result Unit :=
  L.debugFrameHook program a h Hook.maskRet "return"

/-- The first half of `debug_trace_exec`: an event every `count` instructions. -/
def debugCountHook (L : State) (a : Addr) (h : Hook) : Hook × Result Unit :=
  if h.wants Hook.maskCount && decide (0 < h.count) then
    if h.hookcount - 1 = 0 then
      ({ h with hookcount := h.count }, L.debugCallHook program a "count" (-1))
    else ({ h with hookcount := h.hookcount - 1 }, .ok () L)
  else (h, .ok () L)

/-- The second half: an event when a new line starts, or the code goes back. -/
def debugLineHook (L : State) (a : Addr) (h : Hook) (lineinfo : List Int) (npc : Nat) :
    Hook × Result Unit :=
  if h.wants Hook.maskLine then
    match lineinfo[npc]? with
    | none => (h, .ok () L)
    | some newline =>
        let oldline := if 0 < h.oldpc then lineinfo.getD (h.oldpc - 1) (-1) else -1
        let r :=
          if npc = 0 ∨ npc + 1 ≤ h.oldpc ∨ newline ≠ oldline then
            L.debugCallHook program a "line" newline
          else .ok () L
        (if r.raised then h else { h with oldpc := npc + 1 }, r)
  else (h, .ok () L)

def debugTraceExec (L : State) (a : Addr) (h : Hook) (lineinfo : List Int)
    (npc : Nat) : Hook × Result Unit :=
  if L.allowsHook a then
    match L.debugCountHook program a h with
    | (h, .ok _ L) =>
        -- The count hook may have left the hooks switched off.
        if (L.thread? a).any fun th => decide (0 < th.allowhook) then
          L.debugLineHook program a h lineinfo npc
        else (h, .ok () L)
    | (h, .error e L) => (h, .error e L)
  else (h, .ok () L)

/-- `debug_on_return`: the line of the caller goes on where it was. -/
def debugOnReturn (L : State) (a : Addr) (h : Hook) : Hook :=
  { h with oldpc := (((L.thread? a).bind (·.frames.getLast?)).filter
      (·.proto.isSome)).elim 0 (·.savedPc) }

end State

/-- The moments at which a hook is called. -/
inductive HookEvent where
  | call | tailCall | ret | count
  | line (lineinfo : List Int) (npc : Nat)

namespace HookEvent

def name : HookEvent → String
  | .call => "call"
  | .tailCall => "tail call"
  | .ret => "return"
  | .count => "count"
  | .line _ _ => "line"

def currentline : HookEvent → Int
  | .line lineinfo npc => lineinfo.getD npc (-1)
  | _ => -1

def fire (program : Program) (L : State) (a : Addr) (h : Hook) :
    HookEvent → Hook × Result Unit
  | .call => (h, L.debugOnCall program a h)
  | .tailCall => (h, L.debugOnTailcall program a h)
  | .ret => (h, L.debugReturnHook program a h)
  | .count => L.debugCountHook program a h
  | .line lineinfo npc => L.debugLineHook program a h lineinfo npc

end HookEvent

end Luatier
