import Luatier.Gc.Mark

/-!
# Sweeping

The atomic end of a cycle: weak tables are cleared, ephemerons converge,
objects with a pending finalizer are resurrected, and the cells that kept the
white of this cycle are freed.
-/

namespace Luatier

open Tricolor

namespace Table

/-- `clear_weak_entries`; an entry cleared by its key leaves a tombstone. -/
def clearWeakEntries (t : Table) (dead : TValue → Bool) (mask : UInt8) : Table :=
  let mode := t.weakMode &&& mask
  let value (v : TValue) := if mode &&& 2 != 0 && dead v then .nil else v
  { t with
    array := t.array.map value
    hash := t.hash.map fun n =>
      if !n.used then n
      else if mode &&& 1 != 0 && dead n.key then
        { n with key := .nil, value := .nil }
      else { n with value := value n.value } }

end Table

namespace State

def isWhite (L : State) (a : Addr) : Bool :=
  L.gc.marks.color a == .white L.gc.white

def deadValue (L : State) (v : TValue) : Bool :=
  match v.asGc? with
  | some o => L.isWhite o
  | none => false

def clearWeakTables (L : State) (mask : UInt8) : State :=
  { L with heap := L.heap.mapCells fun _ => Object.mapTable fun t =>
      if t.weakMode != 0 then t.clearWeakEntries L.deadValue mask else t }

/-! ## Ephemerons -/

def markValue (L : State) (v : TValue) : State :=
  match v.asGc? with
  | some o => L.markObject o
  | none => L

/-- One entry of a weak-key table; `changed` records that the gray list moved. -/
def ephemeronEntry (s : State × Bool) (n : TableNode) : State × Bool :=
  if !n.used || n.key.isNil then s
  else
    match n.key.asGc? with
    | none => s
    | some k =>
        if s.1.isWhite k || n.value.isNil then s
        else
          let L := s.1.markValue n.value
          (L, s.2 || L.gc.marks.gray.head? != s.1.gc.marks.gray.head?)

def ephemeronTable (s : State × Bool) (cell : Addr × Object) : State × Bool :=
  match cell.2 with
  | .table t =>
      if t.weakKeys && !t.weakValues && !s.1.isWhite cell.1 then
        t.hash.foldl ephemeronEntry s
      else s
  | _ => s

def ephemeronRound (L : State) : State × Bool :=
  L.heap.foldl ephemeronTable (L, false)

/-- The rounds of `converge_ephemerons`; all but the last mark an object. -/
def ephemeronRounds : Nat → State → State
  | 0, L => L
  | fuel + 1, L =>
      let s := L.ephemeronRound
      let L' := s.1.propagateAll L.heap.length
      if s.2 then ephemeronRounds fuel L' else L'

def convergeEphemerons (L : State) : State :=
  L.ephemeronRounds (L.heap.length + 1)

/-! ## Finalizers -/

def objectHasGc (L : State) (a : Addr) (obj : Object) : Bool × State :=
  if L.gc.finalized a then (false, L)
  else
    match obj with
    | .table _ =>
        let (mm, L) := L.getMetamethod (.table a) .gc
        (mm.isTruthy, L)
    | .userdata _ =>
        let (mm, L) := L.getMetamethod (.userdata a) .gc
        (mm.isTruthy, L)
    | _ => (false, L)

/-- The white objects with a finalizer, in the order of `all_`. -/
def separate (L : State) : List (Addr × Object) → List Addr × State
  | [] => ([], L)
  | (a, obj) :: rest =>
      if L.isWhite a then
        let (has, L) := L.objectHasGc a obj
        let (pending, L) := L.separate rest
        (if has then a :: pending else pending, L)
      else L.separate rest

def resurrect (L : State) (a : Addr) : State :=
  if L.isWhite a then L.withMarks (L.gc.marks.shade a) else L

/-! ## The sweep -/

def freeWhite (L : State) : State :=
  { L with
    heap := L.heap.filter fun cell => !L.isWhite cell.1
    strings := L.strings.filter fun s => !L.isWhite s
    gc := { L.gc with
      marks := { L.gc.marks with color := fun _ => .white (!L.gc.white) }
      white := !L.gc.white } }

def queueFinalizers (L : State) (pending : List Addr) : State :=
  { L with gc := { L.gc with
      marks := { L.gc.marks with
        color := fun a => if a ∈ pending then .white (!L.gc.white)
          else L.gc.marks.color a }
      finalize := L.gc.finalize ++ pending } }

/-- The marking half of `sweep`, up to the final clearing of weak tables. -/
def atomicMark (L : State) (pending : List Addr) : State :=
  let L := (L.clearWeakTables 2).convergeEphemerons
  let L := pending.foldl resurrect L
  (L.propagateAll L.heap.length).convergeEphemerons

def sweepObjects (L : State) : State :=
  let L := L.rootThreads.foldl clearDeadStack L
  let (pending, L) := L.separate L.heap
  let L := L.atomicMark pending
  (((L.clearWeakTables 2).clearWeakTables 1).queueFinalizers pending).freeWhite

end State

end Luatier
