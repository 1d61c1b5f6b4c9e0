import Luatier.Frontend.FuncState

/-!
# Names and places

What a name stands for, and how a value is brought into a register or stored.
-/

namespace Luatier.Lowering

open Binary64

inductive IndexKey where
  | reg | intImm | constStr
  deriving DecidableEq, Repr

/--
Where the value of an expression is.  A global is a field of `_ENV`, which is an
upvalue (`global`) or a local in register `table` (`globalIn`).
-/
inductive Expdesc where
  | nonrelocable (reg : Nat)
  | constant (k : Const)
  | local (reg : Nat)
  | upval (idx : Nat)
  | global (k : Nat)
  | globalIn (table k : Nat)
  | indexed (table key : Nat) (indexKey : IndexKey)
  | call (info : Nat)
  deriving DecidableEq, Repr

variable {α β : Type}

/-- An integer constant, or a float with an integer value, between 0 and 255. -/
def constUint8Index : Const → Option Nat
  | .int n => if 0 ≤ n.toInt ∧ n.toInt ≤ 255 then some n.toInt.toNat else none
  | .float w =>
      match decode w with
      | .fin q => if (⌊q⌋ : ℚ) = q ∧ 0 ≤ q ∧ q ≤ 255 then some ⌊q⌋.toNat else none
      | _ => none
  | _ => none

/-! ## Upvalues -/

/-- An upvalue list entry for `(instack, idx)`; the parent's local is captured. -/
def addUpval (name : Name) (instack : Bool) (idx : Nat) (s : LowerState α) :
    Except LowerError (Nat × LowerState α) :=
  match s.fs.upvalues.findIdx? fun u => u.instack == instack && u.idx == idx % 256 with
  | some i => .ok (i, s)
  | none =>
      if maxUpval < s.fs.upvalues.length + 1 then .error (.tooMany "upvalues" maxUpval)
      else
        let prev :=
          match s.prev with
          | parent :: rest => if instack then parent.capture idx :: rest else s.prev
          | [] => []
        let upvalues := s.fs.upvalues ++ [⟨name, instack, idx % 256⟩]
        .ok (s.fs.upvalues.length, ⟨{ s.fs with upvalues }, prev⟩)

def inParent (fs parent : FuncState α) (rest : List (FuncState α))
    (f : LowerState α → Except LowerError (β × LowerState α)) :
    Except LowerError (β × LowerState α) := do
  let (b, s) ← f ⟨parent, rest⟩
  return (b, ⟨fs, s.fs :: s.prev⟩)

def ensureEnvUpvalIn : List (FuncState α) → FuncState α →
    Except LowerError (Nat × LowerState α)
  | prev, fs =>
      match fs.findUpval "_ENV" with
      | some i => .ok (i, ⟨fs, prev⟩)
      | none =>
          match prev with
          | [] => .error .envUpvalueMissing
          | parent :: rest =>
              match parent.findLocal "_ENV" with
              | some reg => addUpval "_ENV" true reg ⟨fs, parent :: rest⟩
              | none =>
                  match parent.findUpval "_ENV" with
                  | some i => addUpval "_ENV" false i ⟨fs, parent :: rest⟩
                  | none => do
                      let (i, s) ← inParent fs parent rest
                        fun s => ensureEnvUpvalIn rest s.fs
                      addUpval "_ENV" false i s

def ensureEnvUpval : Lower α Nat := fun s => ensureEnvUpvalIn s.prev s.fs

/-! ## Variables -/

/-- A name that no function declares is a field of `_ENV`. -/
def globalVar (name : Name) : Lower α Expdesc := do
  match (← getFs).findLocal "_ENV" with
  | some table => return .globalIn table (← stringK name)
  | none =>
      discard ensureEnvUpval
      return .global (← stringK name)

def searchVarIn (name : Name) : List (FuncState α) → FuncState α →
    Except LowerError (Expdesc × LowerState α)
  | prev, fs =>
      match fs.findLocal name with
      | some reg => .ok (.local reg, ⟨fs, prev⟩)
      | none =>
          match fs.findUpval name with
          | some i => .ok (.upval i, ⟨fs, prev⟩)
          | none =>
              match prev with
              | [] => globalVar name ⟨fs, []⟩
              | parent :: rest => do
                  let (e, s) ← inParent fs parent rest
                    fun s => searchVarIn name rest s.fs
                  match e with
                  | .local reg =>
                      let (i, s) ← addUpval name true reg s
                      return (.upval i, s)
                  | .upval i =>
                      let (i, s) ← addUpval name false i s
                      return (.upval i, s)
                  | _ => globalVar name s

def searchVar (name : Name) : Lower α Expdesc := fun s => searchVarIn name s.prev s.fs

/-! ## Values in registers -/

def IndexKey.getOp : IndexKey → OpCode
  | .intImm => .getI
  | .constStr => .getField
  | .reg => .getTable

def IndexKey.setOp : IndexKey → OpCode
  | .intImm => .setI
  | .constStr => .setField
  | .reg => .setTable

def emitGetIndex (dest table key : Nat) (indexKey : IndexKey) : Lower α Unit :=
  discard (codeAbc indexKey.getOp dest table key)

def loadConst (reg : Nat) : Const → Lower α Unit
  | .nil => discard (codeAbc .loadNil reg 0 0)
  | .bool b => discard (codeAbc .loadBool reg (if b then 1 else 0) 0)
  | .int n =>
      if -32768 ≤ n.toInt ∧ n.toInt ≤ 32767 then discard (codeAsbx .loadInt reg n.toInt)
      else do discard (codeAbx .loadK reg (← constIndex (.int n)))
  | k => do discard (codeAbx .loadK reg (← constIndex k))

def loadKey (k : Nat) : Lower α Nat := do
  let kreg ← newReg
  discard (codeAbx .loadK kreg k)
  return kreg

def exp2reg : Expdesc → Lower α Nat
  | .nonrelocable reg => return reg
  | .local reg => return reg
  | .call info => return info
  | .upval idx => do
      let reg ← newReg
      discard (codeAbc .getUpval reg idx 0)
      return reg
  | .globalIn table k => do
      let reg ← newReg
      if k ≤ 255 then discard (codeAbc .getField reg table k)
      else
        let kreg ← loadKey k
        discard (codeAbc .getTable reg table kreg)
        setFreereg (reg + 1)
      return reg
  | .global k => do
      let reg ← newReg
      let env ← ensureEnvUpval
      if k ≤ 255 then discard (codeAbc .getTabUp reg env k)
      else
        discard (codeAbc .getUpval reg env 0)
        let kreg ← loadKey k
        discard (codeAbc .getTable reg reg kreg)
        setFreereg (reg + 1)
      return reg
  | .constant k => do
      let reg ← newReg
      loadConst reg k
      return reg
  | .indexed table key indexKey => do
      let reg ← newReg
      emitGetIndex reg table key indexKey
      setFreereg (reg + 1)
      return reg

def storevar (var : Expdesc) (reg : Nat) : Lower α Unit :=
  match var with
  | .local dest => discard (codeAbc .move dest reg 0)
  | .upval idx => discard (codeAbc .setUpval reg idx 0)
  | .globalIn table k => do
      if k ≤ 255 then discard (codeAbc .setField table k reg)
      else
        let kreg ← loadKey k
        discard (codeAbc .setTable table kreg reg)
  | .global k => do
      let env ← ensureEnvUpval
      if k ≤ 255 then discard (codeAbc .setTabUp env k reg)
      else
        let treg ← newReg
        discard (codeAbc .getUpval treg env 0)
        let kreg ← loadKey k
        discard (codeAbc .setTable treg kreg reg)
  | .indexed table key indexKey => discard (codeAbc indexKey.setOp table key reg)
  | _ => throw .invalidAssignmentTarget

end Luatier.Lowering
