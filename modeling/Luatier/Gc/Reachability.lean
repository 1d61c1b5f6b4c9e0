import Luatier.Gc.Graph

/-!
# What a collection ought to keep, and what it does keep

`Reachable` follows every reference of the heap that the program can still
use.  `Kept` follows the references that the collector follows, in the order
of its phases: paths from the marked roots, then, with the dead stack slots
cleared, the closure under ephemerons of what has a finalizer as well.
-/

namespace Luatier

open Tricolor

namespace TValue

/-- A key that no object stands behind, so that a weak table cannot lose it. -/
def isPlainKey (v : TValue) : Bool := !v.isNil && v.asGc?.isNone

end TValue

namespace Table

def entryRefs (t : Table) : List Addr :=
  t.array.filterMap TValue.asGc? ++ t.hash.flatMap fun n =>
    if n.used && !n.key.isNil then n.key.asGc?.toList ++ n.value.asGc?.toList
    else []

end Table

namespace State

def strongFrameRefs (fr : CallFrame) : List Addr :=
  frameRefs fr ++ fr.contCtx.asGc?.toList

/--
The first slot that no function will read again.  The registers of the function
that runs are live wherever the top is.
-/
def liveLimit (L : State) (a : Addr) (th : Thread) : Nat :=
  max (L.stackLimit a th) ((th.frames.getLast?.map L.windowEnd).getD 0)

def liveStack (L : State) (a : Addr) (th : Thread) : List Addr :=
  (th.stack.take (L.liveLimit a th)).filterMap TValue.asGc?

/--
The strong references of an object.  A value under a plain key of a weak-key
table is as strong as any other.
-/
def strongPointers (L : State) (a : Addr) : Object → List Addr
  | .table t =>
      t.metatable.toList ++
      (if t.weakValues then [] else t.array.filterMap TValue.asGc?) ++
      t.hash.flatMap fun n =>
        if n.used then
          (if t.weakKeys then [] else n.key.asGc?.toList) ++
          (if !t.weakValues && (!t.weakKeys || n.key.isPlainKey) then
            n.value.asGc?.toList else [])
        else []
  | .thread th =>
      L.liveStack a th ++ th.hookFunc.toList ++
      th.frames.flatMap strongFrameRefs ++ th.openUpvals ++
      (if th.errObjSet then th.errObj.asGc?.toList else []) ++
      th.yieldVals.filterMap TValue.asGc?
  | o => L.pointers a o

def strongReferences (L : State) (a : Addr) : List Addr :=
  match L.object? a with
  | some o => (L.strongPointers a o).filter L.heap.allocated
  | none => []

def rootObjects (L : State) : List Addr :=
  L.globals.toList ++ L.registry.toList ++ L.typeMt.filterMap id ++
  L.rootThreads ++ L.strings ++ L.tmNames.filterMap id

/-- Reachable from the roots by strong references and the ephemeron rule. -/
def Reachable (L : State) : Addr → Prop :=
  Marks.Reached L.strongReferences L.ephemerons
    fun a => a ∈ L.rootObjects ∧ L.heap.allocated a

/-- On a path of followed references from a marked root. -/
def Traced (L : State) (a : Addr) : Prop :=
  ∃ r ∈ L.roots, L.heap.allocated r ∧
    Relation.ReflTransGen (fun x y => y ∈ L.references x) r a

/-- An object whose `__gc` the next sweep will call when it is not marked. -/
def HasFinalizer (L : State) (a : Addr) : Prop :=
  ∃ o, (a, o) ∈ L.heap ∧ (L.objectHasGc a o).1 = true

def clearDeadStacks (L : State) : State := L.rootThreads.foldl clearDeadStack L

/--
With the dead slots cleared, on a path of followed references and ephemerons from a
traced object or from one with a finalizer.
-/
def Kept (L : State) : Addr → Prop :=
  Marks.Reached L.clearDeadStacks.references L.clearDeadStacks.ephemerons
    fun a => L.Traced a ∨ L.HasFinalizer a

/-- No collection is in progress: every cell has the current white. -/
structure Quiescent (L : State) : Prop where
  phase : L.gc.phase = .pause
  white : ∀ a, L.gc.marks.color a = .white L.gc.white
  finalize : L.gc.finalize = []

end State

end Luatier
