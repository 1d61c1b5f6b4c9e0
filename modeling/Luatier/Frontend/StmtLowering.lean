import Luatier.Frontend.ExprLowering

/-!
# Lowering of statements

One action for each form of statement, made from the actions of its parts.
-/

namespace Luatier.Lowering

variable {α β : Type}

/-! ## Lists of expressions -/

def moveResults (ca dest : Nat) (need : Int) : Lower α Unit :=
  (List.range need.toNat).forM fun j => moveTo (dest + j) (ca + j)

/--
Expressions number `i` and on of a list for `n` values, from `base` on.  The
result is how many of the values have been given.
-/
def fillValues (base n : Nat) : Nat → List (Item α) → Lower α Nat
  | i, [] => return i
  | i, [⟨.vararg, _⟩] => do
      let need : Int := n - i
      setFreereg (base + i)
      discard (codeAbc .vararg (base + i) (toByte (need + 1)) 0)
      setFreereg (base + n)
      return n
  | i, [⟨.call, emit⟩] => do
      let need : Int := n - i
      setFreereg (base + i)
      discard emit
      let ca ← patchLastCallResults need
      moveResults ca (base + i) need
      setFreereg (base + n)
      return n
  | i, item :: items => do
      setFreereg (base + i)
      let er ← exp2reg (← item.emit)
      moveTo (base + i) er
      setFreereg (base + i + 1)
      fillValues base n (i + 1) items

def padNil (base n filled : Nat) : Lower α Unit :=
  (List.range' filled (n - filled)).forM fun i => discard (codeAbc .loadNil (base + i) 0 0)

def pushLocals (base : Nat) : Nat → List Name → Lower α Unit
  | _, [] => pure ()
  | i, name :: names => do
      pushLocal name (base + i)
      pushLocals base (i + 1) names

def freeToActive : Lower α Unit := modifyFs fun fs => fs.setFreereg fs.nactvar

def lowerLocalDecl (names : List Name) (values : List (Item α)) : Lower α Unit := do
  freeToActive
  let base := (← getFs).freereg
  modifyFs (·.raiseMaxstack (base + names.length))
  let filled ← fillValues base names.length 0 values
  padNil base names.length filled
  pushLocals base 0 names
  freeToActive

/-! ## Assignment -/

def snapshot : Expdesc → Lower α Expdesc
  | .indexed table key .reg => do
      let t ← newReg
      discard (codeAbc .move t table 0)
      let k ← newReg
      discard (codeAbc .move k key 0)
      return .indexed t k .reg
  | .indexed table key indexKey => do
      let t ← newReg
      discard (codeAbc .move t table 0)
      return .indexed t key indexKey
  | e => return e

def targets : List (Lower α Expdesc) → Lower α (List Expdesc)
  | [] => return []
  | var :: vars => do
      let e ← snapshot (← var)
      return e :: (← targets vars)

def storeAll (base : Nat) : Nat → List Expdesc → Lower α Unit
  | _, [] => pure ()
  | i, var :: vars => do
      storevar var (base + i)
      storeAll base (i + 1) vars

def lowerAssign (vars : List (Lower α Expdesc)) (values : List (Item α)) :
    Lower α Unit := do
  freeToActive
  let vars ← targets vars
  let base := (← getFs).freereg
  modifyFs (·.raiseMaxstack (base + vars.length))
  let filled ← fillValues base vars.length 0 values
  padNil base vars.length filled
  storeAll base 0 vars
  freeToActive

def lowerCallStmt (call : Lower α Expdesc) : Lower α Unit := do
  match ← call with
  | .call _ | .nonrelocable _ => freeToActive
  | _ => pure ()

/-! ## Return -/

def FuncState.insertClose (fs : FuncState α) (pc level : Nat) : FuncState α :=
  let jmp := encodeAsbx .jmp (level + 1) 0
  { fs with code := fs.code.take pc ++ jmp :: fs.code.drop pc }

def FuncState.toTailCall (fs : FuncState α) (pc : Nat) : FuncState α :=
  { fs with code := fs.code.modify pc fun i => encodeAbc .tailCall i.a i.b 0 }

/-- `return f(...)`: the call becomes a tail call, after the locals are closed. -/
def lowerTailCall (emit : Lower α Expdesc) : Lower α Unit := do
  freeToActive
  let e ← emit
  let fs ← getFs
  match fs.lastCall with
  | some callPc =>
      match closeLevel fs.locals with
      | some level => modifyFs fun fs => (fs.insertClose callPc level).toTailCall (callPc + 1)
      | none => modifyFs (·.toTailCall callPc)
  | none =>
      discard (patchLastCallResults (-1))
      let info := match e with
        | .call info => info
        | _ => fs.nactvar
      discard (codeAbc .return info 0 0)

/-- The values of a return from `base` on; whether the last one is open. -/
def returnValues (base : Nat) : Nat → List (Item α) → Lower α Bool
  | _, [] => return false
  | i, [⟨.vararg, _⟩] => do
      openVararg (base + i)
      return true
  | i, [⟨.call, emit⟩] => do
      openCall (base + i) emit
      return true
  | i, item :: items => do
      let dest := base + i
      setFreereg dest
      let r ← exp2reg (← item.emit)
      moveTo dest r
      setFreereg (max (← getFs).freereg (dest + 1))
      returnValues base (i + 1) items

def lowerReturn : List (Item α) → Lower α Unit
  | [] => discard (codeAbc .return 0 1 0)
  | [⟨.call, emit⟩] => lowerTailCall emit
  | items => do
      freeToActive
      let base := (← getFs).freereg
      let multret ← returnValues base 0 items
      discard (codeAbc .return base (if multret then 0 else items.length + 1) 0)

/-! ## Branches and loops -/

/-- A condition, its test and the jump that is taken when the test does not skip it. -/
def testJump (cond : Lower α Expdesc) (c : Nat) : Lower α Nat := do
  let cr ← exp2reg (← cond)
  discard (codeAbc .test cr 0 c)
  codeAsbx .jmp 0 0

def lowerBranches : List (Lower α Expdesc × Lower α Unit) → Lower α (List Nat)
  | [] => return []
  | (cond, body) :: branches => do
      let jf ← testJump cond 0
      freeToActive
      body
      let je ← codeAsbx .jmp 0 0
      fixSbx jf (← getFs).pc
      return je :: (← lowerBranches branches)

def fixAll (jumps : List Nat) (dest : Nat) : Lower α Unit :=
  jumps.forM fun j => fixSbx j dest

def lowerIf (branches : List (Lower α Expdesc × Lower α Unit))
    (elseBody : Option (Lower α Unit)) : Lower α Unit := do
  let escape ← lowerBranches branches
  match elseBody with
  | some body => body
  | none => pure ()
  fixAll escape (← getFs).pc

def inLoop (level : Nat) (body : Lower α Unit) : Lower α Unit := do
  modifyFs fun fs => { fs with loopBreakLevel := fs.loopBreakLevel ++ [level] }
  body
  modifyFs fun fs => { fs with loopBreakLevel := fs.loopBreakLevel.dropLast }

def jumpBack (a loop : Nat) : Lower α Unit := do
  discard (codeAsbx .jmp a (loop - ((← getFs).pc + 1)))

def lowerWhile (cond : Lower α Expdesc) (body : Lower α Unit) : Lower α Unit := do
  let loop := (← getFs).pc
  let jf ← testJump cond 0
  freeToActive
  let breaksBefore := (← getFs).breakList.length
  inLoop (← getFs).nactvar body
  jumpBack 0 loop
  let endMarkerPc := (← getFs).pc
  let r ← newReg
  discard (codeAbc .loadNil r 0 0)
  freeToActive
  let afterWhile := (← getFs).pc
  fixSbx jf endMarkerPc
  modifyFs (·.fixBreaks breaksBefore afterWhile)

def lowerRepeat (body : Lower α Unit) (cond : Lower α Expdesc) : Lower α Unit := do
  let saved := (← getFs).locals.length
  let loop := (← getFs).pc
  let breaksBefore := (← getFs).breakList.length
  modifyFs fun fs => { fs with loopBreakLevel := fs.loopBreakLevel ++ [fs.nactvar] }
  body
  let exitJmp ← testJump cond 1
  let level := closeLevel ((← getFs).locals.drop saved)
  jumpBack (closeA level) loop
  fixSbx exitJmp (← getFs).pc
  modifyFs fun fs => { fs with loopBreakLevel := fs.loopBreakLevel.dropLast }
  modifyFs (·.leaveBlock saved true)
  modifyFs fun fs => fs.fixBreaks breaksBefore fs.pc

def lowerBreak : Lower α Unit := do
  let fs ← getFs
  let a :=
    match fs.loopBreakLevel.getLast? with
    | some minReg => closeA (closeLevel (fs.locals.filter fun l => decide (minReg ≤ l.reg)))
    | none => 0
  let j ← codeAsbx .jmp a 0
  modifyFs fun fs => { fs with breakList := fs.breakList ++ [j] }

def exp2place (dest : Nat) (e : Lower α Expdesc) : Lower α Unit := do
  moveTo dest (← exp2reg (← e))
  setFreereg (dest + 1)

def forStep (base : Nat) : Option (Lower α Expdesc) → Lower α Unit
  | some step => exp2place (base + 2) step
  | none => do
      discard (codeAsbx .loadInt (base + 2) 1)
      setFreereg (base + 3)

def pushLoopVar (base : Nat) (name : Name) : Lower α Unit := do
  let ireg ← newReg
  pushLocal name ireg
  modifyFs fun fs =>
    { fs with
      locals := fs.locals.modify (fs.locals.length - 1) fun l => { l with reg := base + 3 }
      nactvar := base + 4
      freereg := base + 4 }

def lowerForNum (name : Name) (start limit : Lower α Expdesc)
    (step : Option (Lower α Expdesc)) (body : Lower α Unit) : Lower α Unit := do
  let base := (← getFs).freereg
  exp2place base start
  exp2place (base + 1) limit
  forStep base step
  let prep ← codeAsbx .forPrep base 0
  let loop := (← getFs).pc
  let beforeI := (← getFs).locals.length
  pushLoopVar base name
  let breaksBefore := (← getFs).breakList.length
  inLoop (base + 3) body
  modifyFs (·.leaveBlock beforeI false)
  let forloopPc ← codeAsbx .forLoop base (loop - ((← getFs).pc + 1))
  fixSbx prep forloopPc
  let afterFor := (← getFs).pc
  modifyFs (·.fixBreaks breaksBefore afterFor)
  setFreereg base

/-- Expressions number `i` and on of the three that control a generic `for`. -/
def fillControl (base : Nat) : Nat → Nat → List (Item α) → Lower α Nat
  | _, filled, [] => return filled
  | i, _, item :: items => do
      let dest := base + i
      setFreereg (max (← getFs).freereg (dest + 1))
      let e ← item.emit
      match e, items with
      | .call _, [] =>
          let need : Int := 3 - i
          let ca ← patchLastCall (toByte (need + 1))
          moveResults ca dest need
          setFreereg (base + 3)
          return 3
      | _, _ =>
          moveTo dest (← exp2reg e)
          setFreereg (dest + 1)
          fillControl base (i + 1) (i + 1) items

def lowerForIn (names : List Name) (iters : List (Item α)) (body : Lower α Unit) :
    Lower α Unit := do
  let base := (← getFs).freereg
  reserve 3
  let filled ← fillControl base 0 0 iters
  padNil base 3 filled
  let nvars := names.length
  setFreereg (base + 3 + nvars)
  modifyFs (·.raiseMaxstack (base + 3 + nvars))
  let jprep ← codeAsbx .jmp 0 0
  let loopbody := (← getFs).pc
  let nlocalsBefore := (← getFs).locals.length
  pushLocals (base + 3) 0 names
  modifyFs fun fs =>
    { fs with nactvar := base + 3 + nvars, freereg := base + 3 + nvars }
  let breaksBefore := (← getFs).breakList.length
  inLoop (base + 3) body
  modifyFs (·.leaveBlock nlocalsBefore false)
  fixSbx jprep (← getFs).pc
  discard (codeAbc .tForCall base 0 nvars)
  let tforloop ← codeAsbx .tForLoop (base + 2) 0
  fixSbx tforloop loopbody
  let afterFor := (← getFs).pc
  modifyFs (·.fixBreaks breaksBefore afterFor)
  setFreereg base

/-! ## Function declarations -/

def lowerLocalFunction (name : Name) (fn : Lower α Expdesc) : Lower α Unit := do
  let r ← newReg
  pushLocal name r
  let er ← exp2reg (← fn)
  moveTo r er
  freeToActive

def fieldOf (reg : Nat) (name : Name) : Lower α Nat := do
  let ki ← stringK name
  let d ← newReg
  if ki ≤ 255 then discard (codeAbc .getField d reg ki)
  else
    let k ← loadKey ki
    discard (codeAbc .getTable d reg k)
  return d

def storePath (er : Nat) : Nat → List Name → Lower α Unit
  | _, [] => pure ()
  | reg, [name] => do storeNamed reg (← stringK name) er
  | reg, name :: path => do
      let d ← fieldOf reg name
      storePath er d path

def storeName (er : Nat) : List Name → Lower α Unit
  | [] => pure ()
  | [name] => do storevar (← searchVar name) er
  | name :: path => do
      let reg ← exp2reg (← searchVar name)
      storePath er reg path

def lowerFunctionDecl (namePath : List Name) (fn : Lower α Expdesc) : Lower α Unit := do
  let er ← exp2reg (← fn)
  storeName er namePath
  freeToActive

/-! ## Blocks -/

/-- The statements of a block, as the block sees them. -/
inductive BlockItem (α : Type) where
  | label (name : Name)
  | goto (name : Name)
  | stmt (emit : Lower α Unit)

def BlockItem.isLabel : BlockItem α → Bool
  | .label _ => true
  | _ => false

def BlockItem.labelName? : BlockItem α → Option Name
  | .label name => some name
  | _ => none

abbrev Defined := List (Name × Option LabelInfo)

def lowerLabel (name : Name) (last : Bool) (entry : Nat) (defined : Defined) :
    Lower α Defined := do
  if (defined.lookup name).isSome then throw (.labelAlreadyDefined name)
  else
    let fs ← getFs
    modifyFs (·.addLabel name (if last then entry else fs.nactvar))
    return (name, fs.labels.lookup name) :: defined

def lowerGoto (name : Name) (known : Option LabelInfo) : Lower α Unit := do
  modifyFs (·.markGoto)
  let fs ← getFs
  match known with
  | some info =>
      discard (codeAsbx .jmp (gotoCloseA fs.nactvar info.nactvar) (info.pc - (fs.pc + 1)))
  | none =>
      let j ← codeAsbx .jmp 0 0
      modifyFs (·.addPending ⟨name, j, fs.nactvar⟩)

/--
The statements of a block.  A goto takes a label of its own block, seen or not,
before one further out that has been seen.
-/
def blockItems (namesHere : List Name) (allowLast : Bool) (entry : Nat) :
    List (BlockItem α) → Defined → Lower α Defined
  | [], defined => return defined
  | .label name :: items, defined => do
      let last := allowLast && items.all BlockItem.isLabel
      let defined ← lowerLabel name last entry defined
      blockItems namesHere allowLast entry items defined
  | .goto name :: items, defined => do
      let fs ← getFs
      let known :=
        if namesHere.contains name && !(defined.lookup name).isSome then none
        else fs.labels.lookup name
      lowerGoto name known
      blockItems namesHere allowLast entry items defined
  | .stmt emit :: items, defined => do
      emit
      blockItems namesHere allowLast entry items defined

def patchHere (defined : Defined) : List PendingGoto → Lower α (List PendingGoto)
  | [] => return []
  | g :: gotos => do
      let fs ← getFs
      match (defined.lookup g.name).isSome, fs.labels.lookup g.name with
      | true, some info =>
          modifyFs (·.patchGoto g info)
          patchHere defined gotos
      | _, _ => return g :: (← patchHere defined gotos)

def restoreLabels : Defined → FuncState α → FuncState α
  | [], fs => fs
  | (name, some info) :: defined, fs => restoreLabels defined (fs.setLabel name info)
  | (name, none) :: defined, fs => restoreLabels defined (fs.eraseLabel name)

def lowerBlock (allowLast close : Bool) (items : List (BlockItem α)) : Lower α Unit := do
  let fs ← getFs
  let saved := fs.locals.length
  let pendingBefore := fs.pendingGotos.length
  let namesHere := items.filterMap BlockItem.labelName?
  let defined ← blockItems namesHere allowLast fs.nactvar items []
  let opened := (← getFs).pendingGotos.drop pendingBefore
  let remain ← patchHere defined opened
  modifyFs fun fs =>
    { fs with pendingGotos := fs.pendingGotos.take pendingBefore ++ remain }
  modifyFs (restoreLabels defined)
  if close then modifyFs (·.leaveBlock saved true)

end Luatier.Lowering
