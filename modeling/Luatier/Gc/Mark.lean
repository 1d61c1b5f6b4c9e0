import Luatier.Vm.Meta

/-!
# Marking

The roots are shaded first; `propagateOne` then blackens one gray object at a
time and shades what it refers to.  A null pointer is `none`, and a pointer to
a cell that is no longer allocated is not followed.
-/

namespace Luatier

open Tricolor

namespace Table

def weakKeys (t : Table) : Bool := t.weakMode &&& 1 != 0

def weakValues (t : Table) : Bool := t.weakMode &&& 2 != 0

end Table

namespace Thread

def clearFrom (th : Thread) (start : Nat) : Thread :=
  { th with stack := th.stack.take start ++
      List.replicate (th.stack.length - start) .nil }

end Thread

namespace State

def withMarks (L : State) (marks : Marks Addr) : State :=
  { L with gc := { L.gc with marks } }

def markObject (L : State) (o : Addr) : State :=
  if L.heap.allocated o then L.withMarks (L.gc.marks.shade o) else L

def markAll (L : State) (os : List Addr) : State := os.foldl markObject L

/-! ## Stacks -/

def windowEnd (L : State) (fr : CallFrame) : Nat :=
  match fr.proto.bind L.proto? with
  | some p => fr.base + p.maxstack
  | none =>
      match (fr.cl.bind L.closure?).bind (fun cl => cl.proto.bind L.proto?) with
      | some p => fr.base + p.maxstack
      | none => 0

def luaFrameHighWater (L : State) (th : Thread) : Nat :=
  th.frames.foldl (fun limit fr =>
    match fr.proto.bind L.proto? with
    | some p => max limit (fr.base + p.maxstack)
    | none =>
        match (fr.cl.bind L.closure?).bind (fun cl => cl.proto.bind L.proto?) with
        | some p => max limit (fr.base + p.maxstack)
        | none => limit) 0

/--
The first slot that the collector takes for dead.  Inside a C call of the
current thread this is the top; otherwise register windows count too.
-/
def stackLimit (L : State) (a : Addr) (th : Thread) : Nat :=
  let strictCTop := L.current == some a
  let limit := th.top
  if strictCTop && th.stackBase != 0 then limit
  else max limit (L.luaFrameHighWater th)

/-- What `mark_thread_stack` marks, in its order. -/
def threadStack (L : State) (a : Addr) (th : Thread) : List Addr :=
  (th.stack.take (L.stackLimit a th)).filterMap TValue.asGc?

def clearDeadStack (L : State) (a : Addr) : State :=
  L.updateCell a fun
    | .thread th => .thread (th.clearFrom (L.stackLimit a th))
    | o => o

/-! ## The references of an object -/

def frameRefs (fr : CallFrame) : List Addr :=
  fr.cl.toList ++ fr.proto.toList ++ fr.varargs.filterMap TValue.asGc?

/-- `UpVal::get`. -/
def upvalGet (L : State) (uv : UpVal) : TValue :=
  if uv.isOpen then
    match uv.thread.bind L.thread? with
    | some th => th.stack.getD uv.stackIndex .nil
    | none => .nil
  else uv.closed

/--
The pointers that `propagate_one` follows, in its order.  Values of entries
with a weak key are left to the ephemeron rounds.
-/
def pointers (L : State) (a : Addr) : Object → List Addr
  | .string _ => []
  | .table t =>
      t.metatable.toList ++
      (if t.weakValues then [] else t.array.filterMap TValue.asGc?) ++
      t.hash.flatMap fun n =>
        if n.used then
          (if t.weakKeys then [] else n.key.asGc?.toList) ++
          (if !t.weakValues && !t.weakKeys then n.value.asGc?.toList else [])
        else []
  | .proto p => p.constants.filterMap TValue.asGc? ++ p.protos
  | .closure cl => cl.proto.toList ++ cl.upvals.filterMap id
  | .upval uv =>
      (L.upvalGet uv).asGc?.toList ++
      (if uv.isOpen then uv.thread.toList else [])
  | .thread th =>
      L.threadStack a th ++ th.hookFunc.toList ++ th.frames.flatMap frameRefs
  | .userdata u => u.metatable.toList ++ u.uservalue.asGc?.toList

/-! ## Roots -/

/-- What `mark_roots` marks for the main and the current thread. -/
def threadRoots (L : State) (a : Addr) : List Addr :=
  match L.thread? a with
  | some th =>
      a :: L.threadStack a th ++ th.hookFunc.toList ++
        th.frames.flatMap frameRefs ++ th.openUpvals
  | none => [a]

def rootThreads (L : State) : List Addr := L.main.toList ++ L.current.toList

def roots (L : State) : List Addr :=
  L.globals.toList ++ L.registry.toList ++ L.typeMt.filterMap id ++
  L.rootThreads.flatMap L.threadRoots ++ L.strings ++ L.tmNames.filterMap id

def markRoots (L : State) : State := L.markAll L.roots

/-! ## Propagation -/

def dropWhiteCache (L : State) (a : Addr) : State :=
  L.updateCell a fun
    | .proto p =>
        match p.cache with
        | some c =>
            if L.gc.marks.color c = .white L.gc.white then
              .proto { p with cache := none }
            else .proto p
        | none => .proto p
    | o => o

def propagateOne (L : State) : State :=
  match L.gc.marks.gray with
  | [] => L
  | o :: rest =>
      let L := L.withMarks
        ⟨Function.update L.gc.marks.color o .black, rest⟩
      match L.object? o with
      | none => L
      | some obj => (L.dropWhiteCache o).markAll (L.pointers o obj)

/-- `while (gray_) propagate_one()`; each round blackens one object. -/
def propagateAll : Nat → State → State
  | 0, L => L
  | fuel + 1, L =>
      if L.gc.marks.gray = [] then L else propagateAll fuel L.propagateOne

end State

end Luatier
