import Luatier.Lib.Tricolor
import Luatier.Runtime.Table

/-!
# Heap objects and the state

Every collectable object is a cell of the heap.  The heap is listed in the
order of the collector's `all_` chain, newest first.  The header fields that
only the collector reads, the mark and the `finalized` flag, are kept apart
from the objects.
-/

namespace Luatier

open Tricolor

structure LjString where
  data : List UInt8
  hash : UInt32
  deriving DecidableEq, Repr

def hashBytes (p : List UInt8) : UInt32 :=
  p.foldl (fun h b => (h ^^^ b.toUInt32) * 16777619) 2166136261

structure Proto where
  constants : List TValue := []
  protos : List Addr := []
  maxstack : Nat := 0
  numparams : Nat := 0
  isVararg : Bool := false
  cache : Option Addr := none
  deriving DecidableEq, Repr

structure Closure where
  proto : Option Addr := none
  upvals : List (Option Addr) := []
  deriving DecidableEq, Repr

/-- An open upvalue names a stack slot of its thread. -/
structure UpVal where
  thread : Option Addr := none
  stackIndex : Nat := 0
  closed : TValue := .nil
  isOpen : Bool := true
  deriving DecidableEq, Repr

structure Userdata where
  metatable : Option Addr := none
  uservalue : TValue := .nil
  deriving DecidableEq, Repr

inductive FrameKind where
  | interpLua | cApi | continue
  deriving DecidableEq, Repr

inductive ContKind where
  | none | pCall | xpCall | doFile
  deriving DecidableEq, Repr

/-- The number of results a caller wants; `LUA_MULTRET` is none in particular. -/
abbrev Wanted := Option Nat

structure CallFrame where
  cl : Option Addr := none
  proto : Option Addr := none
  base : Nat := 0
  savedPc : Nat := 0
  expectedResults : Wanted := some 0
  varargs : List TValue := []
  kind : FrameKind := .interpLua
  hooked : Bool := false
  tailcall : Bool := false
  finalizer : Bool := false
  contKind : ContKind := .none
  contCtx : TValue := .nil
  contResBase : Nat := 0
  deriving DecidableEq, Repr

inductive ThreadStatus where
  | fresh | running | suspended | dead | error
  deriving DecidableEq, Repr

structure Thread where
  stack : List TValue := []
  frames : List CallFrame := []
  hookFunc : Option Addr := none
  allowhook : Int := 1
  openUpvals : List Addr := []
  top : Nat := 0
  stackBase : Nat := 0
  status : ThreadStatus := .fresh
  nny : Int := 0
  nCcalls : UInt16 := 0
  errObj : TValue := .nil
  errObjSet : Bool := false
  yieldVals : List TValue := []
  yieldFuncIdx : Nat := 0
  yieldNresults : Wanted := some 0
  deriving DecidableEq, Repr

inductive Object where
  | string (s : LjString)
  | table (t : Table)
  | proto (p : Proto)
  | closure (cl : Closure)
  | upval (uv : UpVal)
  | userdata (u : Userdata)
  | thread (th : Thread)
  deriving DecidableEq, Repr

namespace Object

def table? : Object → Option Table
  | .table t => some t
  | _ => none

def userdata? : Object → Option Userdata
  | .userdata u => some u
  | _ => none

def string? : Object → Option LjString
  | .string s => some s
  | _ => none

end Object

/-- The cells of the `all_` chain, newest first. -/
abbrev Heap := List (Addr × Object)

namespace Heap

def object? (h : Heap) (a : Addr) : Option Object := h.lookup a

def allocated (h : Heap) (a : Addr) : Bool := (h.object? a).isSome

def mapCells (h : Heap) (f : Addr → Object → Object) : Heap :=
  h.map fun (a, o) => (a, f a o)

def update (h : Heap) (a : Addr) (f : Object → Object) : Heap :=
  h.mapCells fun b o => if b = a then f o else o

theorem object?_mapCells (h : Heap) (f : Addr → Object → Object) (a : Addr) :
    (h.mapCells f).object? a = (h.object? a).map (f a) := by
  induction h with
  | nil => rfl
  | cons cell h ih =>
      obtain ⟨b, o⟩ := cell
      by_cases hab : a = b
      · subst hab
        simp [mapCells, object?]
      · have hne : (a == b) = false := by simpa using hab
        simpa [mapCells, object?, List.lookup_cons, hne] using ih

theorem allocated_mapCells (h : Heap) (f : Addr → Object → Object) (a : Addr) :
    (h.mapCells f).allocated a = h.allocated a := by
  simp only [allocated, object?_mapCells, Option.isSome_map]

theorem object?_update (h : Heap) (f : Object → Object) (a b : Addr) :
    (h.update a f).object? b =
      if b = a then (h.object? b).map f else h.object? b := by
  rw [update, object?_mapCells]
  by_cases hb : b = a
  · simp [hb]
  · simp [hb]

theorem object?_filter (h : Heap) (p : Addr → Bool) (a : Addr) :
    Heap.object? (h.filter fun cell => p cell.1) a =
      if p a then h.object? a else none := by
  induction h with
  | nil => simp [object?]
  | cons cell h ih =>
      obtain ⟨b, o⟩ := cell
      simp only [object?] at ih ⊢
      by_cases hab : a = b
      · subst hab
        by_cases hp : p a
        · simp [hp]
        · rw [List.filter_cons, if_neg hp, ih, if_neg hp, if_neg hp]
      · have hne : (a == b) = false := by simpa using hab
        by_cases hp : p b
        · simpa [List.filter_cons, hp, List.lookup_cons, hne] using ih
        · simpa [List.filter_cons, hp, List.lookup_cons, hne] using ih

theorem mem_of_object? {h : Heap} {a : Addr} {o : Object}
    (ho : h.object? a = some o) : (a, o) ∈ h := by
  obtain ⟨l₁, l₂, rfl, -⟩ := List.lookup_eq_some_iff.mp ho
  simp

theorem allocated_iff_mem (h : Heap) (a : Addr) :
    h.allocated a = true ↔ a ∈ h.map Prod.fst := by
  simp [allocated, object?]

end Heap

inductive GcPhase where
  | pause | propagate | sweep
  deriving DecidableEq, Repr

/-- The collector's own fields. -/
structure GC where
  marks : Marks Addr := ⟨fun _ => .white false, []⟩
  finalized : Addr → Bool := fun _ => false
  white : Bool := false
  phase : GcPhase := .pause
  finalize : List Addr := []
  collecting : Bool := false
  runningFinalizer : Bool := false

structure State where
  main : Option Addr := none
  current : Option Addr := none
  globals : Option Addr := none
  registry : Option Addr := none
  /-- The metatables of the basic types. -/
  typeMt : List (Option Addr) := []
  /-- The interned strings, in the order of the buckets. -/
  strings : List Addr := []
  tmNames : List (Option Addr) := []
  yieldPending : Bool := false
  yieldContinue : Bool := false
  yieldContKind : ContKind := .none
  yieldContCtx : TValue := .nil
  yieldContResBase : Nat := 0
  heap : Heap := []
  gc : GC := {}

namespace State

def object? (L : State) (a : Addr) : Option Object := L.heap.object? a

def table? (L : State) (a : Addr) : Option Table :=
  match L.object? a with
  | some (.table t) => some t
  | _ => none

def proto? (L : State) (a : Addr) : Option Proto :=
  match L.object? a with
  | some (.proto p) => some p
  | _ => none

def closure? (L : State) (a : Addr) : Option Closure :=
  match L.object? a with
  | some (.closure cl) => some cl
  | _ => none

def thread? (L : State) (a : Addr) : Option Thread :=
  match L.object? a with
  | some (.thread th) => some th
  | _ => none

def upval? (L : State) (a : Addr) : Option UpVal :=
  match L.object? a with
  | some (.upval uv) => some uv
  | _ => none

def userdata? (L : State) (a : Addr) : Option Userdata :=
  match L.object? a with
  | some (.userdata u) => some u
  | _ => none

def string? (L : State) (a : Addr) : Option LjString :=
  match L.object? a with
  | some (.string s) => some s
  | _ => none

theorem table?_eq_bind (L : State) (a : Addr) :
    L.table? a = (L.object? a).bind Object.table? := by
  unfold table?
  cases L.object? a with
  | none => rfl
  | some o => cases o <;> rfl

theorem userdata?_eq_bind (L : State) (a : Addr) :
    L.userdata? a = (L.object? a).bind Object.userdata? := by
  unfold userdata?
  cases L.object? a with
  | none => rfl
  | some o => cases o <;> rfl

theorem string?_eq_bind (L : State) (a : Addr) :
    L.string? a = (L.object? a).bind Object.string? := by
  unfold string?
  cases L.object? a with
  | none => rfl
  | some o => cases o <;> rfl

theorem table?_eq_some {L : State} {a : Addr} {t : Table} :
    L.table? a = some t ↔ L.object? a = some (.table t) := by
  unfold table?
  cases L.object? a with
  | none => simp
  | some o => cases o <;> simp

theorem proto?_eq_some {L : State} {a : Addr} {p : Proto} :
    L.proto? a = some p ↔ L.object? a = some (.proto p) := by
  unfold proto?
  cases L.object? a with
  | none => simp
  | some o => cases o <;> simp

theorem upval?_eq_some {L : State} {a : Addr} {uv : UpVal} :
    L.upval? a = some uv ↔ L.object? a = some (.upval uv) := by
  unfold upval?
  cases L.object? a with
  | none => simp
  | some o => cases o <;> simp

theorem thread?_eq_some {L : State} {a : Addr} {th : Thread} :
    L.thread? a = some th ↔ L.object? a = some (.thread th) := by
  unfold thread?
  cases L.object? a with
  | none => simp
  | some o => cases o <;> simp

theorem userdata?_eq_some {L : State} {a : Addr} {u : Userdata} :
    L.userdata? a = some u ↔ L.object? a = some (.userdata u) := by
  unfold userdata?
  cases L.object? a with
  | none => simp
  | some o => cases o <;> simp

theorem string?_eq_some {L : State} {a : Addr} {str : LjString} :
    L.string? a = some str ↔ L.object? a = some (.string str) := by
  unfold string?
  cases L.object? a with
  | none => simp
  | some o => cases o <;> simp

def interned (L : State) : InternedStrings where
  view a := (L.string? a).elim [] (·.data)
  hash a := (L.string? a).elim 0 (·.hash)

def updateCell (L : State) (a : Addr) (f : Object → Object) : State :=
  { L with heap := L.heap.update a f }

theorem object?_updateCell (L : State) (a b : Addr) (f : Object → Object) :
    (L.updateCell a f).object? b =
      if b = a then (L.object? b).map f else L.object? b :=
  Heap.object?_update L.heap f a b

end State

end Luatier
