import Luatier.Gc.Collector

/-!
# The program between two steps of the collector

The program allocates objects, moves references between the slots of its
stacks, and stores references into objects through the write barrier.
-/

namespace Luatier

open Tricolor

/-- What the program can do to the heap in one go. -/
inductive Action where
  | create (a : Addr) (obj : Object)
  | intern (a : Addr) (s : LjString)
  | set (a : Addr) (key value : TValue)
  | setInt (a : Addr) (i : Int64) (value : TValue)
  | setMetatable (a : Addr) (mt : Option Addr)
  | setUserdataMetatable (a : Addr) (mt : Option Addr)
  | setUservalue (a : Addr) (uv : TValue)
  | setUpval (a : Addr) (v : TValue)
  | closeUpval (a : Addr)
  | setThread (a : Addr) (th : Thread)
  | setTypeMt (i : Nat) (mt : Option Addr)
  | resume (a : Addr)
  | cacheClosure (a : Addr) (cl : Addr)

namespace State

def fresh (L : State) (a : Addr) : Bool :=
  !L.heap.allocated a && L.heap.all fun (b, o) => !(L.pointers b o).contains a

def barriers (L : State) (parent : Addr) (values : List TValue) : State :=
  values.foldl (fun L v => L.barrier parent v) L

def storeTable (L : State) (a : Addr) : Except String Stored → State
  | .ok r => (L.updateTable a fun _ => r.table).barriers a r.barriers
  | .error _ => L

/--
The weak mode that `update_weak_mode` reads from a metatable.  A name that
interning would have to create is not a key of any table.
-/
def weakModeOf (L : State) (mt : Option Addr) : UInt8 :=
  let name := (L.tmNames.getD TmEvent.mode.ctorIdx none).or
    (L.strings.find? fun s => L.interned.view s == "__mode".toUTF8.toList)
  match mt.bind L.table?, name with
  | some t, some name =>
      match t.get L.interned (.string name) with
      | .string s =>
          (if (L.interned.view s).contains 'k'.toUInt8 then 1 else 0) |||
            (if (L.interned.view s).contains 'v'.toUInt8 then 2 else 0)
      | _ => 0
  | _, _ => 0

def tableOf (mt : Option Addr) : List TValue := (mt.map TValue.table).toList

/-- `set_metatable` of a table. -/
def setMetatable (L : State) (a : Addr) (mt : Option Addr) : State :=
  (L.updateTable a fun t =>
    { t with metatable := mt, weakMode := L.weakModeOf mt }).barriers a (tableOf mt)

def updateUserdata (L : State) (a : Addr) (f : Userdata → Userdata) : State :=
  L.updateCell a fun
    | .userdata u => .userdata (f u)
    | o => o

/-- `UpVal::set`. -/
def upvalSet (L : State) (a : Addr) (uv : UpVal) (v : TValue) : State :=
  let L :=
    if uv.isOpen then
      match uv.thread with
      | some b => L.updateCell b fun
          | .thread th => .thread { th with stack := th.stack.set uv.stackIndex v }
          | o => o
      | none => L
    else L.updateCell a fun _ => .upval { uv with closed := v }
  L.barriers a [v]

/-- `UpVal::close`. -/
def upvalClose (L : State) (a : Addr) (uv : UpVal) : State :=
  if uv.isOpen then
    let closed := L.upvalGet uv
    (L.updateCell a fun _ => .upval { closed, isOpen := false }).barriers a [closed]
  else L

def act (L : State) : Action → Option State
  | .create a obj => if L.fresh a then some (L.link a obj) else none
  | .intern a s =>
      if L.fresh a then
        some { L.link a (.string s) with strings := a :: L.strings }
      else none
  | .set a key value =>
      (L.table? a).map fun t => L.storeTable a (t.set L.interned 3 key value)
  | .setInt a i value =>
      (L.table? a).map fun t => L.storeTable a (t.setInt L.interned 4 i value)
  | .setMetatable a mt => (L.table? a).map fun _ => L.setMetatable a mt
  | .setUserdataMetatable a mt =>
      (L.userdata? a).map fun _ =>
        (L.updateUserdata a ({ · with metatable := mt })).barriers a (tableOf mt)
  | .setUservalue a uv =>
      (L.userdata? a).map fun _ =>
        (L.updateUserdata a ({ · with uservalue := uv })).barriers a [uv]
  | .setUpval a v => (L.upval? a).map fun uv => L.upvalSet a uv v
  | .closeUpval a => (L.upval? a).map fun uv => L.upvalClose a uv
  | .setThread a th =>
      (L.thread? a).map fun _ => L.updateCell a fun _ => .thread th
  | .setTypeMt i mt => some { L with typeMt := L.typeMt.set i mt }
  | .resume a => (L.thread? a).map fun _ => { L with current := some a }
  | .cacheClosure a cl =>
      (L.proto? a).map fun p =>
        L.updateCell a fun _ => .proto { p with cache := some cl }

end State

end Luatier
