import Luatier.Frontend.Variables

/-!
# Lowering of expressions

One action for each form of expression, made from the actions of its parts.
-/

namespace Luatier.Lowering

open Binary64

variable {α β : Type}

/-- What the last expression of a list is, before it is lowered. -/
inductive ItemKind where
  | call | vararg | single
  deriving DecidableEq, Repr

structure Item (α : Type) where
  kind : ItemKind
  emit : Lower α Expdesc

inductive FieldItem (α : Type) where
  | positional (item : Item α)
  | named (name : Name) (value : Lower α Expdesc)
  | keyed (key value : Lower α Expdesc)

def FieldItem.isPositional : FieldItem α → Bool
  | .positional _ => true
  | _ => false

/-- The most recent `CALL` with another third operand; its register. -/
def patchLastCall (c : Nat) : Lower α Nat := do
  let fs ← getFs
  match fs.lastCall with
  | some pc =>
      match fs.code[pc]? with
      | some i =>
          modifyFs fun fs => { fs with code := fs.code.set pc (encodeAbc .call i.a i.b c) }
          return i.a
      | none => return 0
  | none => return 0

def patchLastCallResults (nresults : Int) : Lower α Nat :=
  patchLastCall (if nresults < 0 then 0 else toByte (nresults + 1))

def lowerVararg : Lower α Expdesc := do
  let r ← newReg
  discard (codeAbc .vararg r 2 0)
  return .nonrelocable r

def lowerParen (inner : Lower α Expdesc) : Lower α Expdesc := do
  match ← inner with
  | .call info => return .nonrelocable info
  | e => return e

def negate (w : Word) : Word := w ^^^ 0x8000000000000000

def unOpCode : UnOp → OpCode
  | .neg => .unm
  | .not => .not
  | .len => .len
  | .bnot => .bnot

def lowerUn (op : UnOp) (operand : Lower α Expdesc) : Lower α Expdesc := do
  match op, ← operand with
  | .neg, .constant (.int n) => return .constant (.int (-n))
  | .neg, .constant (.float w) => return .constant (.float (negate w))
  | _, o =>
      let r ← exp2reg o
      let dest ← newReg
      discard (codeAbc (unOpCode op) dest r 0)
      modifyFs (·.freeReg r)
      return .nonrelocable dest

/-! ## Binary operators -/

/-- The opcode of a comparison, the `A` for "holds", and whether to swap. -/
def relation : BinOp → Option (OpCode × Nat × Bool)
  | .eq => some (.eq, 1, false)
  | .ne => some (.eq, 0, false)
  | .lt => some (.lt, 1, false)
  | .gt => some (.lt, 1, true)
  | .le => some (.le, 1, false)
  | .ge => some (.le, 1, true)
  | _ => none

def isRel (op : BinOp) : Bool := (relation op).isSome

def binArithOp : BinOp → Option OpCode
  | .add => some .add
  | .sub => some .sub
  | .mul => some .mul
  | .div => some .div
  | .idiv => some .idiv
  | .mod => some .mod
  | .pow => some .pow
  | .band => some .band
  | .bor => some .bor
  | .bxor => some .bxor
  | .shl => some .shl
  | .shr => some .shr
  | _ => none

def operands (lhs rhs : Lower α Expdesc) : Lower α (Nat × Nat) := do
  let rb ← exp2reg (← lhs)
  let rc ← exp2reg (← rhs)
  return (rb, rc)

def codeCompare (cmp : OpCode) (a : Nat) (swap : Bool) (rb rc : Nat) : Lower α Unit :=
  if swap then discard (codeAbc cmp a rc rb) else discard (codeAbc cmp a rb rc)

/-- A comparison of `and`: the jump that is taken when it does not hold. -/
def relFailJmp (freeFloor : Nat) (op : BinOp) (lhs rhs : Lower α Expdesc) :
    Lower α Nat := do
  setFreereg (max (← getFs).freereg freeFloor)
  let (rb, rc) ← operands lhs rhs
  let (cmp, a, swap) := (relation op).getD (.eq, 1, false)
  codeCompare cmp (1 - a) swap rb rc
  let j ← codeAsbx .jmp 0 0
  setFreereg freeFloor
  return j

def lowerRelAnd (op₁ : BinOp) (lhs₁ rhs₁ : Lower α Expdesc) (op₂ : BinOp)
    (lhs₂ rhs₂ : Lower α Expdesc) : Lower α Expdesc := do
  let freeFloor := (← getFs).freereg
  let j₁ ← relFailJmp freeFloor op₁ lhs₁ rhs₁
  let j₂ ← relFailJmp freeFloor op₂ lhs₂ rhs₂
  setFreereg freeFloor
  let dest ← newReg
  discard (codeAbc .loadBool dest 1 0)
  let jend ← codeAsbx .jmp 0 0
  let flab := (← getFs).pc
  fixSbx j₁ flab
  fixSbx j₂ flab
  discard (codeAbc .loadBool dest 0 0)
  fixSbx jend (← getFs).pc
  setFreereg (dest + 1)
  return .nonrelocable dest

def lowerLogic (isAnd : Bool) (lhs rhs : Lower α Expdesc) : Lower α Expdesc := do
  let lr ← exp2reg (← lhs)
  let dest ← newReg
  discard (codeAbc .move dest lr 0)
  discard (codeAbc .test dest 0 (if isAnd then 0 else 1))
  let jend ← codeAsbx .jmp 0 0
  setFreereg (dest + 1)
  let rr ← exp2reg (← rhs)
  moveTo dest rr
  fixSbx jend (← getFs).pc
  setFreereg (dest + 1)
  return .nonrelocable dest

def lowerConcat (lhs rhs : Lower α Expdesc) : Lower α Expdesc := do
  let (lr, rr) ← operands lhs rhs
  let a ← newReg
  let fs ← getFs
  if fs.freereg < a + 2 then reserve (a + 2 - fs.freereg)
  moveTo a lr
  moveTo (a + 1) rr
  discard (codeAbc .concat a a (a + 1))
  setFreereg (a + 1)
  return .nonrelocable a

def lowerCompare (cmp : OpCode) (a : Nat) (swap : Bool) (lhs rhs : Lower α Expdesc) :
    Lower α Expdesc := do
  let (rb, rc) ← operands lhs rhs
  let dest ← newReg
  codeCompare cmp a swap rb rc
  discard (codeAsbx .jmp 0 1)
  discard (codeAbc .loadBool dest 0 1)
  discard (codeAbc .loadBool dest 1 0)
  return .nonrelocable dest

def arithDest (rb rc : Nat) : Lower α Nat := do
  let nactvar := (← getFs).nactvar
  if nactvar ≤ rb then return rb
  else if nactvar ≤ rc then return rc
  else newReg

def lowerArith (op : BinOp) (lhs rhs : Lower α Expdesc) : Lower α Expdesc := do
  let (rb, rc) ← operands lhs rhs
  let dest ← arithDest rb rc
  match binArithOp op with
  | some op =>
      discard (codeAbc op dest rb rc)
      setFreereg (dest + 1)
      return .nonrelocable dest
  | none => throw .notArith

/-! ## Tables and calls -/

def lowerIndex (table key : Lower α Expdesc) : Lower α Expdesc := do
  let rt ← exp2reg (← table)
  match ← key with
  | .constant k =>
      match constUint8Index k, k with
      | some imm, _ => return .indexed rt imm .intImm
      | none, .string s =>
          let ki ← stringK s
          if ki ≤ 255 then return .indexed rt ki .constStr
          else return .indexed rt (← exp2reg (.constant k)) .reg
      | none, _ => return .indexed rt (← exp2reg (.constant k)) .reg
  | k => return .indexed rt (← exp2reg k) .reg

def lowerField (table : Lower α Expdesc) (field : Name) : Lower α Expdesc := do
  let rt ← exp2reg (← table)
  let ki ← stringK field
  if ki ≤ 255 then return .indexed rt ki .constStr
  else return .indexed rt (← loadKey ki) .reg

def openVararg (dest : Nat) : Lower α Unit := do
  setFreereg dest
  reserve 1
  discard (codeAbc .vararg dest 0 0)

def openCall (dest : Nat) (emit : Lower α Expdesc) : Lower α Unit := do
  setFreereg dest
  discard emit
  discard (patchLastCallResults (-1))

def callArgs : List (Item α) → Lower α Bool
  | [] => return false
  | [⟨.vararg, _⟩] => do
      openVararg (← getFs).freereg
      return true
  | [⟨.call, emit⟩] => do
      openCall (← getFs).freereg emit
      return true
  | arg :: args => do
      let dest := (← getFs).freereg
      setFreereg (dest + 1)
      modifyFs (·.raiseMaxstack (dest + 1))
      let r ← exp2reg (← arg.emit)
      moveTo dest r
      setFreereg (dest + 1)
      callArgs args

def calleeTo (start : Nat) (callee : Lower α Expdesc) : Lower α Unit := do
  match ← callee with
  | .indexed table key indexKey => emitGetIndex start table key indexKey
  | c => moveTo start (← exp2reg c)

def callBase (start : Nat) : Lower α Nat := do
  if start < (← getFs).nactvar then
    let nb ← newReg
    discard (codeAbc .move nb start 0)
    return nb
  else return start

def selfArg (base : Nat) : Option Name → Lower α Unit
  | some name => do
      let key ← newReg
      discard (codeAbx .loadK key (← stringK name))
      discard (codeAbc .self base base key)
      setFreereg (base + 2)
  | none => pure ()

def lowerCall (callee : Lower α Expdesc) (args : List (Item α)) (method : Option Name) :
    Lower α Expdesc := do
  setFreereg (max (← getFs).freereg (← getFs).nactvar)
  let start := (← getFs).freereg
  reserve 1
  calleeTo start callee
  let base ← callBase start
  setFreereg (base + 1)
  selfArg base method
  let isOpen ← callArgs args
  let freereg := (← getFs).freereg
  let b := if isOpen then 0 else freereg - base
  discard (codeAbc .call base b 2)
  setFreereg (base + 1)
  return .call base

/-- `SETLIST` for the pending elements of a constructor. -/
def codeSetList (r b na : Nat) : Lower α Unit :=
  discard (codeAbc .setList r b (if na = 0 then 1 else (na - 1) / 50 + 1))

def storeNamed (r ki rv : Nat) : Lower α Unit := do
  if ki ≤ 255 then discard (codeAbc .setField r ki rv)
  else
    let k ← loadKey ki
    discard (codeAbc .setTable r k rv)

def storeKeyed (r : Nat) (k : Expdesc) (rv : Nat) : Lower α Unit := do
  match k with
  | .constant c =>
      match constUint8Index c, c with
      | some imm, _ => discard (codeAbc .setI r imm rv)
      | none, .string s =>
          let ki ← stringK s
          if ki ≤ 255 then discard (codeAbc .setField r ki rv)
          else discard (codeAbc .setTable r (← exp2reg k) rv)
      | none, _ => discard (codeAbc .setTable r (← exp2reg k) rv)
  | _ => discard (codeAbc .setTable r (← exp2reg k) rv)

/--
The fields of a constructor in register `r`.  Positional values wait in the
registers after it, 50 at most.  The result says how many there were, how many
still wait, and whether the last one is open.
-/
def tableFields (r : Nat) : List (FieldItem α) → Nat → Nat → Lower α (Nat × Nat × Bool)
  | [], na, tostore => return (na, tostore, false)
  | .named name value :: fields, na, tostore => do
      let ki ← stringK name
      let rv ← exp2reg (← value)
      storeNamed r ki rv
      setFreereg (r + 1 + tostore)
      tableFields r fields na tostore
  | .keyed key value :: fields, na, tostore => do
      let k ← key
      let rv ← exp2reg (← value)
      storeKeyed r k rv
      setFreereg (r + 1 + tostore)
      tableFields r fields na tostore
  | .positional item :: fields, na, tostore => do
      let lastArray := !fields.any FieldItem.isPositional
      let dest := r + 1 + tostore
      setFreereg dest
      if lastArray && item.kind == .vararg then
        openVararg dest
        return (na, tostore, true)
      else if lastArray && item.kind == .call then
        openCall dest item.emit
        return (na, tostore, true)
      else
        let rv ← exp2reg (← item.emit)
        moveTo dest rv
        setFreereg (dest + 1)
        if tostore + 1 = 50 then
          codeSetList r 50 (na + 1)
          setFreereg (r + 1)
          tableFields r fields (na + 1) 0
        else tableFields r fields (na + 1) (tostore + 1)

def lowerTable (fields : List (FieldItem α)) : Lower α Expdesc := do
  let r ← newReg
  discard (codeAbc .newTable r 0 0)
  let (na, tostore, multret) ← tableFields r fields 0 0
  if 0 < tostore ∨ multret then codeSetList r (if multret then 0 else tostore) na
  setFreereg (r + 1)
  return .nonrelocable r

/-! ## Functions -/

def inChild (f : Lower α β) : Lower α (β × FuncState α) := fun s => do
  let (b, child) ← f ⟨{}, s.fs :: s.prev⟩
  return ((b, child.fs), ⟨child.prev.headD s.fs, child.prev.tail⟩)

def patchPending : List PendingGoto → Lower α Unit
  | [] => pure ()
  | g :: gotos => do
      match (← getFs).labels.lookup g.name with
      | some info => modifyFs (·.patchGoto g info)
      | none => throw (.noVisibleLabel g.name)
      patchPending gotos

def pushParams : List Name → Lower α Unit
  | [] => pure ()
  | param :: params => do
      let reg ← newReg
      pushLocal param reg
      pushParams params

def FuncState.proto (fs : FuncState α) (numparams : Nat) (isVararg : Bool) (body : Block) :
    Proto α where
  code := fs.code
  constants := fs.constants
  upvalues := fs.upvalues
  protos := fs.protos
  numparams
  isVararg
  maxstack := max fs.maxstack 2
  body
  gotoMarks := fs.gotoMarks
  labelMarks := fs.labelMarks
  declRegs := fs.declRegs

def functionBody (params : List Name) (body : Lower α Unit) : Lower α Unit := do
  pushParams params
  body
  patchPending (← getFs).pendingGotos
  discard (codeAbc .return 0 1 0)

def lowerFunction (params : List Name) (isVararg : Bool) (body : Block)
    (emit : Lower α Unit) : Lower α Expdesc := do
  let (_, child) ← inChild (functionBody params emit)
  let proto := child.proto params.length isVararg body
  modifyFs fun fs => { fs with protos := fs.protos ++ [proto] }
  let dest ← newReg
  discard (codeAbx .closure dest ((← getFs).protos.length - 1))
  return .nonrelocable dest

end Luatier.Lowering
