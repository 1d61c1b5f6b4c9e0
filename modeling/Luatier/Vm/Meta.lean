import Luatier.Runtime.State

/-!
# Metatables and metamethods

The absence of a metamethod is cached in the flags of its metatable, so a
lookup may write to the heap.
-/

namespace Luatier

/-- The metamethod events, in the order of their bits in `opt_flags`. -/
inductive TmEvent where
  | index | newindex | gc | mode | len | eq | add | sub | mul | mod | pow | div
  | idiv | band | bor | bxor | shl | shr | unm | bnot | lt | le | concat | call
  deriving DecidableEq, Repr

namespace Table

def tmBit (e : TmEvent) : UInt32 := 1 <<< UInt32.ofNat e.ctorIdx

def noTm (t : Table) (e : TmEvent) : Bool := t.optFlags &&& tmBit e != 0

def markNoTm (t : Table) (e : TmEvent) : Table :=
  { t with optFlags := t.optFlags ||| tmBit e }

end Table

def Object.mapTable (f : Table → Table) : Object → Object
  | .table t => .table (f t)
  | o => o

namespace State

def updateTable (L : State) (a : Addr) (f : Table → Table) : State :=
  L.updateCell a (Object.mapTable f)

def getMetatable (L : State) : TValue → Option Addr
  | .table a => (L.table? a).bind (·.metatable)
  | .userdata a => (L.userdata? a).bind (·.metatable)
  | .integer _ => L.typeMt.getD ValueTag.float.code none
  | v => L.typeMt.getD v.tag.code none

def getTm (L : State) (mt : Option Addr) (e : TmEvent) : TValue × State :=
  match mt.bind fun a => (L.table? a).map (a, ·) with
  | none => (.nil, L)
  | some (a, t) =>
      if t.noTm e then (.nil, L)
      else
        match L.tmNames.getD e.ctorIdx none with
        | none => (.nil, L)
        | some name =>
            let tm := t.get L.interned (.string name)
            if tm.isNil then (.nil, L.updateTable a (·.markNoTm e))
            else (tm, L)

def getMetamethod (L : State) (v : TValue) (e : TmEvent) : TValue × State :=
  L.getTm (L.getMetatable v) e

end State

end Luatier
