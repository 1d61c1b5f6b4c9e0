import Luatier.Vm.Code

/-!
# Instructions that may call a metamethod

`invoke_mm` leaves such an instruction half done.  If the metamethod is back at
once, the code of the opcode goes on; if it runs in a frame of its own,
`finish_interrupted_op` completes the instruction when that frame is popped.
-/

namespace Luatier

inductive OpCode where
  | getTabUp | setTabUp | getTable | setTable | getI | setI | getField | setField
  | self
  | add | sub | mul | div | idiv | mod | pow | band | bor | bxor | shl | shr
  | unm | bnot | len | concat | eq | lt | le
  deriving DecidableEq, Repr

structure Instruction where
  op : OpCode
  a : Nat := 0
  b : Nat := 0
  c : Nat := 0
  deriving DecidableEq, Repr

/-- The fields of a frame that an instruction works with. -/
structure OpFrame where
  base : Nat := 0
  savedPc : Nat := 0
  pendingFinishOp : Bool := false
  metaResBase : Nat := 0
  leInvert : Bool := false
  concatPos : Nat := 0
  concatLast : Nat := 0
  concatDest : Nat := 0
  deriving DecidableEq, Repr

/-- What the frame on top runs. -/
structure Chunk where
  code : List Instruction
  constants : List TValue := []
  upvals : List (Option Addr) := []

/-- What opcodes do by themselves with numbers, strings and tables. -/
structure Raw where
  arith : OpCode → TValue → TValue → State → Option (Result TValue)
  unm : TValue → State → Option TValue
  bnot : TValue → State → Option TValue
  length : TValue → State → TValue
  numberLt : TValue → TValue → Bool
  numberLe : TValue → TValue → Bool
  stringLt : State → TValue → TValue → Bool
  stringLe : State → TValue → TValue → Bool
  concat : List TValue → State → Result TValue
  set : Addr → TValue → TValue → State → Result Unit
  message : OpCode → TValue → TValue → State → String

/-- The frame on top of a thread, and everything else. -/
structure Activation where
  L : State
  fr : OpFrame

/-- How far the code of an opcode gets by itself. -/
inductive OpOutcome where
  | done (s : Activation)
  | raised (e : String) (L : State)
  /-- `invoke_mm`; `inline` goes on if the metamethod is back at once. -/
  | call (s : Activation) (inline : State → OpOutcome)
  /-- `call_mm`: the metamethod runs in an interpreter of its own. -/
  | nested (s : Activation) (inline : State → OpOutcome)

namespace TValue

def isNumber : TValue → Bool
  | .integer _ => true
  | .number _ => true
  | _ => false

def isString : TValue → Bool
  | .string _ => true
  | _ => false

def isTable : TValue → Bool
  | .table _ => true
  | _ => false

def isFunction : TValue → Bool
  | .function _ => true
  | _ => false

def concatenates (v : TValue) : Bool := v.isString || v.isNumber

end TValue

namespace State

def rawGet (L : State) (t key : TValue) : TValue :=
  match t with
  | .table tb => ((L.table? tb).map fun t => t.get L.interned key).getD .nil
  | _ => .nil

/-- `get_metamethod` of the first value that has one. -/
def getMetamethod2 (L : State) (v w : TValue) (e : TmEvent) : TValue × State :=
  match L.getMetamethod v e with
  | (.nil, L) => L.getMetamethod w e
  | r => r

end State

/-- `arith_mt`. -/
def OpCode.event : OpCode → TmEvent
  | .add => .add
  | .sub => .sub
  | .mul => .mul
  | .div => .div
  | .idiv => .idiv
  | .mod => .mod
  | .pow => .pow
  | .band => .band
  | .bor => .bor
  | .bxor => .bxor
  | .shl => .shl
  | .shr => .shr
  | .unm => .unm
  | .bnot => .bnot
  | .len => .len
  | .concat => .concat
  | .eq => .eq
  | .lt => .lt
  | .le => .le
  | .setTabUp | .setTable | .setI | .setField => .newindex
  | .getTabUp | .getTable | .getI | .getField | .self => .index

namespace Activation

variable (a : Addr) (s : Activation)

def reg (i : Nat) : TValue := s.L.register a (s.fr.base + i)

def setReg (i : Nat) (v : TValue) : Activation :=
  { s with L := s.L.updateThread a (·.setSlot (s.fr.base + i) v) }

def withState (L : State) : Activation := { s with L }

def metaRes : TValue := s.L.register a s.fr.metaResBase

def notPending : Activation := { s with fr := { s.fr with pendingFinishOp := false } }

def skipIf (skip : Bool) : Activation :=
  { s with fr := { s.fr with savedPc := if skip then s.fr.savedPc + 1 else s.fr.savedPc } }

def setConcat (pos last dest : Nat) : Activation :=
  { s with fr := { s.fr with concatPos := pos, concatLast := last, concatDest := dest } }

def setConcatPos (pos : Nat) : Activation :=
  { s with fr := { s.fr with concatPos := pos } }

def setLeInvert (leInvert : Bool) : Activation :=
  { s with fr := { s.fr with leInvert } }

def callBase : Nat := ((s.L.thread? a).map s.L.liveRegsTop).getD 0

def pushMm (mm : TValue) (args : List TValue) (nout : Nat) : Activation :=
  s.withState (s.L.updateThread a (·.pushMm (s.callBase a) mm args nout))

def setPending (callBase : Nat) : Activation :=
  { s with fr := { s.fr with pendingFinishOp := true, metaResBase := callBase } }

def invokeMm (mm : TValue) (args : List TValue) (nout : Nat)
    (inline : Activation → OpOutcome) : OpOutcome :=
  if mm.isFunction then
    let pushed := (s.pushMm a mm args nout).setPending (s.callBase a)
    .call pushed fun L => inline (pushed.withState L)
  else .raised "invoke_mm: function expected" s.L

/-- `call_mm`; the top is as before when the result is read. -/
def callMm (mm : TValue) (args : List TValue) (nout : Nat)
    (inline : Activation → TValue → OpOutcome) : OpOutcome :=
  let savedTop := ((s.L.thread? a).map (·.top)).getD 0
  .nested (s.pushMm a mm args nout) fun L =>
    inline (s.withState (L.updateThread a (·.setTop savedTop)))
      (L.register a (s.callBase a))

end Activation

namespace Chunk

variable (raw : Raw) (a : Addr) (chunk : Chunk)

/-! ## Completion -/

def finishConcat : Nat → Activation → Nat → Nat → Nat → TValue → OpOutcome
  | 0, s, _, _, dest, acc => .done (s.setReg a dest acc)
  | n + 1, s, pos, last, dest, acc =>
      let rhs := s.reg a pos
      if acc.concatenates && rhs.concatenates then
        match raw.concat [acc, rhs] s.L with
        | .error e L => .raised e L
        | .ok acc L => finishConcat n (s.withState L) (pos + 1) last dest acc
      else
        let (mm, L) := s.L.getMetamethod2 acc rhs .concat
        let s := s.withState L
        if mm.isFunction then
          (s.setConcat pos last dest).invokeMm a mm [acc, rhs] 1 fun s =>
            finishConcat n s.notPending (pos + 1) last dest (s.metaRes a)
        else .raised (raw.message .concat acc rhs s.L) s.L

/-- `finish_interrupted_op`. -/
def finishInterruptedOp (s : Activation) : OpOutcome :=
  if s.fr.pendingFinishOp then
    let s := s.notPending
    match s.fr.savedPc with
    | 0 => .raised "finish_interrupted_op: bad pc" s.L
    | pc + 1 =>
        match chunk.code[pc]? with
        | none => .raised "finish_interrupted_op: bad pc" s.L
        | some ins =>
            let res := s.metaRes a
            match ins.op with
            | .eq | .lt | .le =>
                let r := res.isTruthy != s.fr.leInvert
                .done ((s.setLeInvert false).skipIf (r != (ins.a != 0)))
            | .add | .sub | .mul | .div | .idiv | .mod | .pow | .band | .bor | .bxor
            | .shl | .shr | .unm | .bnot | .len => .done (s.setReg a ins.a res)
            | .getTable | .getI | .getField | .getTabUp => .done (s.setReg a ins.a res)
            | .self => .done (s.setReg a ins.a res)
            | .setTable | .setI | .setField | .setTabUp => .done s
            | .concat =>
                let pos := s.fr.concatPos + 1
                let last := s.fr.concatLast
                finishConcat raw a (last + 1 - pos) s pos last s.fr.concatDest res
  else .done s

/-! ## The opcodes -/

/--
`index_yieldable`, and what its caller does when the value is at hand.  The
lookup that the opcodes make before it is its first round.
-/
def indexYieldable (op : OpCode) (found : Activation → TValue → OpOutcome)
    (called : Activation → OpOutcome) : Nat → Activation → TValue → TValue → OpOutcome
  | 0, s, _, _ => .raised "'__index' chain too long; possible loop" s.L
  | fuel + 1, s, t, key =>
      let v := s.L.rawGet t key
      if !v.isNil then found s v
      else
        let (mm, L) := s.L.getMetamethod t .index
        let s := s.withState L
        if mm.isNil then
          if t.isTable then found s .nil
          else .raised (raw.message op t key s.L) s.L
        else if mm.isFunction then s.invokeMm a mm [t, key] 1 called
        else indexYieldable op found called fuel s mm key

/-- The store of `newindex_yieldable`: only a table takes it. -/
def storeRaw (op : OpCode) (t key value : TValue) (s : Activation) : OpOutcome :=
  match t with
  | .table tb =>
      match raw.set tb key value s.L with
      | .error e L => .raised e L
      | .ok _ L => .done (s.withState L)
  | _ => .raised (raw.message op t key s.L) s.L

/-- `newindex_yieldable`. -/
def newindexYieldable (op : OpCode) (called : Activation → OpOutcome) :
    Nat → Activation → TValue → TValue → TValue → OpOutcome
  | 0, s, _, _, _ => .raised "'__newindex' chain too long; possible loop" s.L
  | fuel + 1, s, t, key, value =>
      let cur := s.L.rawGet t key
      if !cur.isNil then storeRaw raw op t key value s
      else
        let (mm, L) := s.L.getMetamethod t .newindex
        let s := s.withState L
        if mm.isNil then storeRaw raw op t key value s
        else if mm.isFunction then s.invokeMm a mm [t, key, value] 0 called
        else newindexYieldable op called fuel s mm key value

def maxTagLoop : Nat := 2000

def opGet (ins : Instruction) (s : Activation) (t key : TValue) : OpOutcome :=
  indexYieldable raw a ins.op (fun s v => .done (s.setReg a ins.a v))
    (finishInterruptedOp raw a chunk) maxTagLoop s t key

def opSet (op : OpCode) (s : Activation) (t key value : TValue) : OpOutcome :=
  newindexYieldable raw a op (finishInterruptedOp raw a chunk) maxTagLoop s t key value

/-- `SELF` writes the object to `R[A+1]` once more when the method is known. -/
def finishSelf (ins : Instruction) (t : TValue) (s : Activation) : OpOutcome :=
  match finishInterruptedOp raw a chunk s with
  | .done s => .done (s.setReg a (ins.a + 1) t)
  | o => o

def opSelf (ins : Instruction) (s : Activation) (t key : TValue) : OpOutcome :=
  indexYieldable raw a .self
    (fun s m => .done ((s.setReg a (ins.a + 1) t).setReg a ins.a m))
    (finishSelf raw a chunk ins t) maxTagLoop (s.setReg a (ins.a + 1) t) t key

/-- A metamethod of either operand, which the completion finds the rest of. -/
def opMm (op : OpCode) (s : Activation) (v w : TValue) (args : List TValue) : OpOutcome :=
  let (mm, L) := s.L.getMetamethod2 v w op.event
  let s := s.withState L
  if mm.isFunction then s.invokeMm a mm args 1 (finishInterruptedOp raw a chunk)
  else .raised (raw.message op v w s.L) s.L

def opArith (ins : Instruction) (s : Activation) : OpOutcome :=
  let lhs := s.reg a ins.b
  let rhs := s.reg a ins.c
  match raw.arith ins.op lhs rhs s.L with
  | some (.ok out L) => .done ((s.withState L).setReg a ins.a out)
  | some (.error e L) => .raised e L
  | none => opMm raw a chunk ins.op s lhs rhs [lhs, rhs]

/-- `UNM` and `BNOT`. -/
def opUnary (ins : Instruction) (out : Option TValue) (s : Activation) : OpOutcome :=
  let v := s.reg a ins.b
  match out with
  | some out => .done (s.setReg a ins.a out)
  | none =>
      let (mm, L) := s.L.getMetamethod v ins.op.event
      let s := s.withState L
      if mm.isFunction then s.invokeMm a mm [v] 1 (finishInterruptedOp raw a chunk)
      else .raised (raw.message ins.op v .nil s.L) s.L

/-- `LEN`; what is neither a string nor a table goes through `meta_len`. -/
def opLen (ins : Instruction) (s : Activation) : OpOutcome :=
  let v := s.reg a ins.b
  if v.isString then .done (s.setReg a ins.a (raw.length v s.L))
  else
    let (mm, L) := s.L.getMetamethod v .len
    let s := s.withState L
    if v.isTable then
      if mm.isFunction then s.invokeMm a mm [v] 1 (finishInterruptedOp raw a chunk)
      else .done (s.setReg a ins.a (raw.length v s.L))
    else if mm.isFunction then
      s.callMm a mm [v] 1 fun s out => .done (s.setReg a ins.a out)
    else .raised (raw.message .len v .nil s.L) s.L

/-- The loop of `CONCAT` itself. -/
def concatLoop : Nat → Activation → Nat → Instruction → TValue → OpOutcome
  | 0, s, _, ins, acc => .done (s.setReg a ins.a acc)
  | n + 1, s, pos, ins, acc =>
      let rhs := s.reg a pos
      if acc.concatenates && rhs.concatenates then
        match raw.concat [acc, rhs] s.L with
        | .error e L => .raised e L
        | .ok acc L => concatLoop n (s.withState L) (pos + 1) ins acc
      else
        let (mm, L) := s.L.getMetamethod2 acc rhs .concat
        let s := s.withState L
        if mm.isFunction then
          (s.setConcatPos pos).invokeMm a mm [acc, rhs] 1 fun s =>
            concatLoop n s.notPending (pos + 1) ins (s.metaRes a)
        else .raised (raw.message .concat acc rhs s.L) s.L

def opConcat (ins : Instruction) (s : Activation) : OpOutcome :=
  let s := s.setConcat ins.b ins.c ins.a
  let operands := (List.range (ins.c + 1 - ins.b)).map fun i => s.reg a (ins.b + i)
  if operands.all TValue.concatenates then
    match raw.concat operands s.L with
    | .error e L => .raised e L
    | .ok v L => .done ((s.withState L).setReg a ins.a v)
  else concatLoop raw a (ins.c - ins.b) s (ins.b + 1) ins (s.reg a ins.b)

def opEq (ins : Instruction) (s : Activation) : OpOutcome :=
  let rb := s.reg a ins.b
  let rc := s.reg a ins.c
  let finish (eq : Bool) (s : Activation) : OpOutcome :=
    .done (s.skipIf (eq != (ins.a != 0)))
  if rb.tag != rc.tag && !(rb.isNumber && rc.isNumber) then finish false s
  else
    match rb with
    | .table _ | .function _ | .userdata _ =>
        if rb.payload = rc.payload then finish true s
        else
          let (mm, L) := s.L.getMetamethod2 rb rc .eq
          let s := s.withState L
          if mm.isFunction then
            s.invokeMm a mm [rb, rc] 1 (finishInterruptedOp raw a chunk)
          else finish false s
    | _ => finish (valuesEqual rb rc) s

def opLt (ins : Instruction) (s : Activation) : OpOutcome :=
  let rb := s.reg a ins.b
  let rc := s.reg a ins.c
  let finish (lt : Bool) : OpOutcome := .done (s.skipIf (lt != (ins.a != 0)))
  if rb.isNumber && rc.isNumber then finish (raw.numberLt rb rc)
  else if rb.isString && rc.isString then finish (raw.stringLt s.L rb rc)
  else opMm raw a chunk .lt (s.setLeInvert false) rb rc [rb, rc]

/-- `LE`, with `not (rc < rb)` where there is no `__le`. -/
def opLe (ins : Instruction) (s : Activation) : OpOutcome :=
  let rb := s.reg a ins.b
  let rc := s.reg a ins.c
  let finish (le : Bool) : OpOutcome := .done (s.skipIf (le != (ins.a != 0)))
  if rb.isNumber && rc.isNumber then finish (raw.numberLe rb rc)
  else if rb.isString && rc.isString then finish (raw.stringLe s.L rb rc)
  else
    let (mm, L) := s.L.getMetamethod2 rb rc .le
    let s := s.withState L
    if mm.isFunction then
      (s.setLeInvert false).invokeMm a mm [rb, rc] 1 (finishInterruptedOp raw a chunk)
    else
      let (mm, L) := s.L.getMetamethod2 rc rb .lt
      let s := s.withState L
      if mm.isFunction then
        (s.setLeInvert true).invokeMm a mm [rc, rb] 1 (finishInterruptedOp raw a chunk)
      else .raised (raw.message .lt rb rc s.L) s.L

def constant (i : Nat) : TValue := chunk.constants.getD i .nil

def upvalue (s : Activation) (i : Nat) : TValue :=
  (((chunk.upvals.getD i none).bind s.L.upval?).map s.L.upvalGet).getD .nil

def execute (ins : Instruction) (s : Activation) : OpOutcome :=
  let index (i : Nat) : TValue := .integer (Int64.ofNat i)
  match ins.op with
  | .getTabUp => opGet raw a chunk ins s (chunk.upvalue s ins.b) (chunk.constant ins.c)
  | .getTable => opGet raw a chunk ins s (s.reg a ins.b) (s.reg a ins.c)
  | .getI => opGet raw a chunk ins s (s.reg a ins.b) (index ins.c)
  | .getField => opGet raw a chunk ins s (s.reg a ins.b) (chunk.constant ins.c)
  | .setTabUp =>
      opSet raw a chunk ins.op s (chunk.upvalue s ins.a) (chunk.constant ins.b)
        (s.reg a ins.c)
  | .setTable =>
      opSet raw a chunk ins.op s (s.reg a ins.a) (s.reg a ins.b) (s.reg a ins.c)
  | .setI => opSet raw a chunk ins.op s (s.reg a ins.a) (index ins.b) (s.reg a ins.c)
  | .setField =>
      opSet raw a chunk ins.op s (s.reg a ins.a) (chunk.constant ins.b) (s.reg a ins.c)
  | .self => opSelf raw a chunk ins s (s.reg a ins.b) (s.reg a ins.c)
  | .add | .sub | .mul | .div | .idiv | .mod | .pow | .band | .bor | .bxor | .shl
  | .shr => opArith raw a chunk ins s
  | .unm => opUnary raw a chunk ins (raw.unm (s.reg a ins.b) s.L) s
  | .bnot => opUnary raw a chunk ins (raw.bnot (s.reg a ins.b) s.L) s
  | .len => opLen raw a chunk ins s
  | .concat => opConcat raw a ins s
  | .eq => opEq raw a chunk ins s
  | .lt => opLt raw a chunk ins s
  | .le => opLe raw a chunk ins s

def step (s : Activation) : OpOutcome :=
  match chunk.code[s.fr.savedPc]? with
  | none => .done s
  | some ins =>
      execute raw a chunk ins
        { s with fr := { s.fr with savedPc := s.fr.savedPc + 1 } }

end Chunk

end Luatier
