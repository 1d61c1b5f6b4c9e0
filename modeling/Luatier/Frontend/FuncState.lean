import Luatier.Frontend.Ast
import Luatier.Frontend.Bytecode

/-!
# The state of the lowering

One `FuncState` for each function that is being lowered, the innermost first.
Line numbers and the debug records of locals are left out.
-/

namespace Luatier.Lowering

open Binary64

/-- The constants of a chunk; two of them are one if their bits are the same. -/
inductive Const where
  | nil
  | bool (value : Bool)
  | int (value : Int64)
  | float (value : Word)
  | string (value : String)
  deriving DecidableEq, Repr

structure Local where
  name : Name
  reg : Nat
  captured : Bool
  deriving DecidableEq, Repr

structure UpvalDesc where
  name : Name
  instack : Bool
  idx : Nat
  deriving DecidableEq, Repr

structure LabelInfo where
  pc : Nat
  nactvar : Nat
  deriving DecidableEq, Repr

structure PendingGoto where
  name : Name
  jmpPc : Nat
  nactvar : Nat
  deriving DecidableEq, Repr

inductive LowerError where
  | tooMany (what : String) (limit : Nat)
  | labelAlreadyDefined (name : Name)
  | noVisibleLabel (name : Name)
  | envUpvalueMissing
  | invalidAssignmentTarget
  | notArith
  deriving DecidableEq, Repr

/-- Where a statement was met: the next instruction, and the active registers. -/
structure Mark where
  pc : Nat
  nactvar : Nat
  deriving DecidableEq, Repr

/-- The last four fields are not in the source: the body, and the records below. -/
structure Proto (α : Type) where
  code : List (Instruction α)
  constants : List Const
  upvalues : List UpvalDesc
  protos : List (Proto α)
  numparams : Nat
  isVararg : Bool
  maxstack : Nat
  body : Block
  gotoMarks : List Mark
  labelMarks : List Mark
  declRegs : List Nat

/--
The last three fields are not in the source.  They record, in source order,
where each goto and each label was met and the register of each local.
-/
structure FuncState (α : Type) where
  code : List (Instruction α) := []
  constants : List Const := []
  upvalues : List UpvalDesc := []
  protos : List (Proto α) := []
  locals : List Local := []
  nactvar : Nat := 0
  freereg : Nat := 0
  maxstack : Nat := 0
  regHwm : Nat := 0
  breakList : List Nat := []
  loopBreakLevel : List Nat := []
  labels : List (Name × LabelInfo) := []
  pendingGotos : List PendingGoto := []
  gotoMarks : List Mark := []
  labelMarks : List Mark := []
  declRegs : List Nat := []

/-- The function being lowered, and those around it. -/
structure LowerState (α : Type) where
  fs : FuncState α
  prev : List (FuncState α)

abbrev Lower (α β : Type) := StateT (LowerState α) (Except LowerError) β

def maxStack : Nat := 250
def maxVars : Nat := 200
def maxUpval : Nat := 255

variable {α β : Type}

def gotoCloseA (gotoNactvar labelNactvar : Nat) : Nat :=
  if labelNactvar < gotoNactvar then labelNactvar + 1 else 0

def activeVars : List Local → Nat
  | [] => 0
  | l :: locals => max (l.reg + 1) (activeVars locals)

def closeLevel (locals : List Local) : Option Nat :=
  ((locals.filter Local.captured).map Local.reg).min?

def closeA : Option Nat → Nat
  | some level => level + 1
  | none => 0

namespace FuncState

variable (fs : FuncState α)

def pc : Nat := fs.code.length

def emit (i : Instruction α) : FuncState α := { fs with code := fs.code ++ [i] }

def fixSbx (pc dest : Nat) : FuncState α :=
  { fs with code := fs.code.modify pc fun i =>
      match i.op with
      | some op => encodeAsbx op i.a (dest - (pc + 1))
      | none => i }

def setFreereg (freereg : Nat) : FuncState α := { fs with freereg }

def freeReg (r : Nat) : FuncState α :=
  if fs.nactvar ≤ r then fs.setFreereg r else fs

def raiseMaxstack (n : Nat) : FuncState α := { fs with maxstack := max fs.maxstack n }

def reserved (n : Nat) : FuncState α :=
  { fs with
    freereg := fs.freereg + n
    regHwm := max fs.regHwm (fs.freereg + n)
    maxstack := max fs.maxstack (fs.freereg + n) }

def addLocal (name : Name) (reg : Nat) : FuncState α :=
  { fs with
    locals := fs.locals ++ [⟨name, reg, false⟩]
    declRegs := fs.declRegs ++ [reg]
    nactvar := max fs.nactvar (reg + 1)
    freereg := max fs.freereg (max fs.nactvar (reg + 1)) }

def findLocal (name : Name) : Option Nat :=
  (fs.locals.reverse.find? (·.name == name)).map Local.reg

def findUpval (name : Name) : Option Nat := fs.upvalues.findIdx? (·.name == name)

def capture (reg : Nat) : FuncState α :=
  { fs with locals := fs.locals.map fun l =>
      if l.reg == reg then { l with captured := true } else l }

def constIndex (k : Const) : Nat × FuncState α :=
  match fs.constants.findIdx? (· == k) with
  | some i => (i, fs)
  | none => (fs.constants.length, { fs with constants := fs.constants ++ [k] })

def terminal : Bool :=
  match fs.code.getLast? with
  | some i => i.isOp .return || i.isOp .tailCall
  | none => false

def deadRange (closing : List Local) : Option (Nat × Nat) :=
  let dead := (closing.filter (!·.captured)).map Local.reg
  match dead.min?, dead.max?, closeLevel closing with
  | some first, some last, none => some (first, max last (fs.regHwm - 1))
  | _, _, _ => none

def clearDead (closing : List Local) : FuncState α :=
  match fs.deadRange closing with
  | some (first, last) =>
      if first ≤ last then fs.emit (encodeAbc .loadNil first (last - first) 0) else fs
  | none => fs

def keepLocals (locals : List Local) : FuncState α :=
  { fs with locals, nactvar := activeVars locals }

def closeJump (closing : List Local) : FuncState α :=
  match closeLevel closing with
  | some level =>
      if fs.terminal then fs.setFreereg fs.nactvar
      else (fs.emit (encodeAsbx .jmp (level + 1) 0)).setFreereg (max fs.regHwm fs.nactvar)
  | none => fs.setFreereg fs.nactvar

def raiseHwm : FuncState α := { fs with regHwm := max fs.regHwm fs.freereg }

def leaveBlock (nlocalsBefore : Nat) (clear : Bool) : FuncState α :=
  let closing := fs.locals.drop nlocalsBefore
  let fs' := if clear then fs.clearDead closing else fs
  ((fs'.keepLocals (fs.locals.take nlocalsBefore)).closeJump closing).raiseHwm

def markGoto : FuncState α :=
  { fs with gotoMarks := fs.gotoMarks ++ [⟨fs.pc, fs.nactvar⟩] }

def setLabel (name : Name) (info : LabelInfo) : FuncState α :=
  { fs with labels := (name, info) :: fs.labels.filter (·.1 != name) }

def addLabel (name : Name) (nactvar : Nat) : FuncState α :=
  { fs.setLabel name ⟨fs.pc, nactvar⟩ with
    labelMarks := fs.labelMarks ++ [⟨fs.pc, nactvar⟩] }

def eraseLabel (name : Name) : FuncState α :=
  { fs with labels := fs.labels.filter (·.1 != name) }

def addPending (g : PendingGoto) : FuncState α :=
  { fs with pendingGotos := fs.pendingGotos ++ [g] }

def patchGoto (g : PendingGoto) (info : LabelInfo) : FuncState α :=
  let a := gotoCloseA g.nactvar info.nactvar
  { fs with code := fs.code.set g.jmpPc (encodeAsbx .jmp a (info.pc - (g.jmpPc + 1))) }

def fixBreaks (breaksBefore dest : Nat) : FuncState α :=
  let patched := (fs.breakList.drop breaksBefore).foldl (·.fixSbx · dest) fs
  { patched with breakList := fs.breakList.take breaksBefore }

def lastCall : Option Nat :=
  (fs.code.reverse.findIdx? (·.isOp .call)).map (fs.code.length - 1 - ·)

end FuncState

/-! ## Actions -/

def getFs : Lower α (FuncState α) := do return (← get).fs

def modifyFs (f : FuncState α → FuncState α) : Lower α Unit :=
  modify fun s => { s with fs := f s.fs }

def checkLimit (v limit : Nat) (what : String) : Lower α Unit :=
  if limit < v then throw (.tooMany what limit) else pure ()

def code (i : Instruction α) : Lower α Nat := do
  let pc := (← getFs).pc
  modifyFs (·.emit i)
  return pc

def codeAbc (op : OpCode) (a b c : Nat) : Lower α Nat := code (encodeAbc op a b c)

def codeAbx (op : OpCode) (a bx : Nat) : Lower α Nat := code (encodeAbx op a bx)

def codeAsbx (op : OpCode) (a : Nat) (sbx : Int) : Lower α Nat :=
  code (encodeAsbx op a sbx)

def fixSbx (pc dest : Nat) : Lower α Unit := modifyFs (·.fixSbx pc dest)

def setFreereg (n : Nat) : Lower α Unit := modifyFs (·.setFreereg n)

def reserve (n : Nat) : Lower α Unit := do
  modifyFs (·.reserved n)
  checkLimit (← getFs).freereg (maxStack - 1) "registers"

def newReg : Lower α Nat := do
  let r := (← getFs).freereg
  reserve 1
  return r

def constIndex (k : Const) : Lower α Nat := do
  let (i, fs) := (← getFs).constIndex k
  modifyFs fun _ => fs
  return i

def stringK (s : String) : Lower α Nat := constIndex (.string s)

def pushLocal (name : Name) (reg : Nat) : Lower α Unit := do
  checkLimit ((← getFs).nactvar + 1) maxVars "local variables"
  modifyFs (·.addLocal name reg)

def moveTo (dest reg : Nat) : Lower α Unit :=
  if reg == dest then pure () else discard (codeAbc .move dest reg 0)

end Luatier.Lowering
