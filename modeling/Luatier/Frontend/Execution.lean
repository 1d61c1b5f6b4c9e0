import Luatier.Frontend.Lowering

/-!
# Running the code of one function

One activation of a function without functions of its own.  Values and what the
virtual machine does with them are parameters: an operation may change the world
or raise an error, and so may a call, which leaves anything in the registers above
its results.
-/

namespace Luatier.Lowering

open Binary64

abbrev Op (σ ε X : Type) := StateT σ (Except ε) X

/--
The values and their primitive operations.  A call is told how many results are
wanted; `none` is all of them.
-/
structure Primitives (V σ ε : Type) where
  const : Const → V
  isNil : V → Bool
  isTruthy : V → Bool
  arith : OpCode → V → V → Op σ ε V
  unary : OpCode → V → Op σ ε V
  concat : V → V → Op σ ε V
  compare : OpCode → V → V → Op σ ε Bool
  index : V → V → Op σ ε V
  newindex : V → V → V → Op σ ε Unit
  newTable : Op σ ε V
  setList : V → Int → List V → Op σ ε Unit
  call : Option Nat → V → List V → Op σ ε (List V)
  forPrep : V → V → V → Op σ ε (V × V × V)
  forLoop : V → V → V → Option V
  /-- What a call leaves in a register above its results. -/
  garbage : σ → Nat → V
  isTruthy_bool : ∀ b, isTruthy (const (.bool b)) = b
  neg_int : ∀ n, unary .unm (const (.int n)) = pure (const (.int (-n)))
  neg_float : ∀ w, unary .unm (const (.float w)) = pure (const (.float (negate w)))

/-- How an activation ends. -/
inductive Outcome (V σ ε : Type) where
  | returned (values : List V) (world : σ)
  | raised (error : ε)
  | panicked
  deriving DecidableEq, Repr

/-- Registers are counted from the base of the frame. -/
structure Config (V σ : Type) where
  pc : Nat
  regs : Nat → V
  top : Nat
  upvals : Nat → V
  world : σ

variable {α V σ ε : Type}

def Instruction.c : Instruction α → Nat
  | .abc _ _ _ c => c
  | .abx _ _ bx => bx / 256
  | .leaf _ => 0

namespace Primitives

variable (P : Primitives V σ ε)

def nil : V := P.const .nil

def adjust (wanted : Option Nat) (values : List V) : List V :=
  match wanted with
  | none => values
  | some n => values.take n ++ List.replicate (n - values.length) P.nil

/-- `concat_last - concat_pos` times, from the left. -/
def concatAll : V → List V → Op σ ε V
  | acc, [] => pure acc
  | acc, rhs :: values => do concatAll (← P.concat acc rhs) values

end Primitives

namespace Config

variable (c : Config V σ)

def set (r : Nat) (v : V) : Config V σ := { c with regs := Function.update c.regs r v }

def skip (p : Prop) [Decidable p] : Config V σ := if p then { c with pc := c.pc + 1 } else c

/-- `pc() += sbx`, the counter being past the jump already. -/
def jump (sbx : Int) : Config V σ := { c with pc := (c.pc + sbx).toNat }

def between (first last : Nat) : List V := (List.range' first (last - first)).map c.regs

def operands (first count : Nat) : List V :=
  if count = 0 then c.between first c.top else c.between first (first + count - 1)

def place (P : Primitives V σ ε) (first : Nat) (values : List V) : Config V σ :=
  { c with
    regs := fun r =>
      if r < first then c.regs r else (values[r - first]?).getD (P.garbage c.world r)
    top := first + values.length }

section Set

variable (r : Nat) (v : V)

@[simp] theorem set_pc : (c.set r v).pc = c.pc := rfl
@[simp] theorem set_top : (c.set r v).top = c.top := rfl
@[simp] theorem set_upvals : (c.set r v).upvals = c.upvals := rfl
@[simp] theorem set_world : (c.set r v).world = c.world := rfl

@[simp] theorem set_self : (c.set r v).regs r = v := by
  simp only [set, Function.update_self]

theorem set_of_ne {q : Nat} (h : q ≠ r) : (c.set r v).regs q = c.regs q := by
  simp only [set, Function.update_of_ne h]

end Set

end Config

def operate {X : Type} (m : Op σ ε X) (k : X → Config V σ → Config V σ) (c : Config V σ) :
    Except (Outcome V σ ε) (Config V σ) :=
  match m c.world with
  | .ok (x, world) => .ok (k x { c with world })
  | .error error => .error (.raised error)

def finish (m : Op σ ε (List V)) (c : Config V σ) : Except (Outcome V σ ε) (Config V σ) :=
  match m c.world with
  | .ok (values, world) => .error (.returned values world)
  | .error error => .error (.raised error)

section Dispatch

variable (P : Primitives V σ ε) (p : Proto α) (varargs : List V)

def withConstant (k : Nat)
    (f : V → Config V σ → Except (Outcome V σ ε) (Config V σ)) (c : Config V σ) :
    Except (Outcome V σ ε) (Config V σ) :=
  match p.constants[k]? with
  | some const => f (P.const const) c
  | none => .error .panicked

def wantedOf (count : Nat) : Option Nat := if count = 0 then none else some (count - 1)

/--
One instruction, with the counter past it.  There are no open upvalues to close,
and functions inside are left out.
-/
def exec (i : Instruction α) (c : Config V σ) : Except (Outcome V σ ε) (Config V σ) :=
  match i.op with
  | none => .error .panicked
  | some op =>
    match op with
    | .move => .ok (c.set i.a (c.regs i.b))
    | .loadNil =>
        .ok { c with regs := fun r => if i.a ≤ r ∧ r ≤ i.a + i.b then P.nil else c.regs r }
    | .loadBool => .ok ((c.set i.a (P.const (.bool (i.b != 0)))).skip (i.c ≠ 0))
    | .loadInt => .ok (c.set i.a (P.const (.int (Int64.ofInt i.sbx))))
    | .loadK => withConstant P p i.bx (fun v c => .ok (c.set i.a v)) c
    | .getUpval => .ok (c.set i.a (c.upvals i.b))
    | .setUpval => .ok { c with upvals := Function.update c.upvals i.b (c.regs i.a) }
    | .getTabUp => withConstant P p i.c (fun key c =>
        operate (P.index (c.upvals i.b) key) (fun v c => c.set i.a v) c) c
    | .setTabUp => withConstant P p i.b (fun key c =>
        operate (P.newindex (c.upvals i.a) key (c.regs i.c)) (fun _ c => c) c) c
    | .getTable =>
        operate (P.index (c.regs i.b) (c.regs i.c)) (fun v c => c.set i.a v) c
    | .setTable =>
        operate (P.newindex (c.regs i.a) (c.regs i.b) (c.regs i.c)) (fun _ c => c) c
    | .getI => operate (P.index (c.regs i.b) (P.const (.int (Int64.ofNat i.c))))
        (fun v c => c.set i.a v) c
    | .setI =>
        operate (P.newindex (c.regs i.a) (P.const (.int (Int64.ofNat i.b))) (c.regs i.c))
          (fun _ c => c) c
    | .getField => withConstant P p i.c (fun key c =>
        operate (P.index (c.regs i.b) key) (fun v c => c.set i.a v) c) c
    | .setField => withConstant P p i.b (fun key c =>
        operate (P.newindex (c.regs i.a) key (c.regs i.c)) (fun _ c => c) c) c
    | .newTable => operate P.newTable (fun v c => c.set i.a v) c
    | .self =>
        let object := c.regs i.b
        operate (P.index object (c.regs i.c))
          (fun v c => (c.set (i.a + 1) object).set i.a v) c
    | .add | .sub | .mul | .div | .idiv | .mod | .pow
    | .band | .bor | .bxor | .shl | .shr =>
        operate (P.arith op (c.regs i.b) (c.regs i.c)) (fun v c => c.set i.a v) c
    | .unm | .bnot | .len => operate (P.unary op (c.regs i.b)) (fun v c => c.set i.a v) c
    | .not => .ok (c.set i.a (P.const (.bool (!P.isTruthy (c.regs i.b)))))
    | .concat =>
        operate (P.concatAll (c.regs i.b) (c.between (i.b + 1) (i.c + 1)))
          (fun v c => c.set i.a v) c
    | .eq | .lt | .le =>
        operate (P.compare op (c.regs i.b) (c.regs i.c))
          (fun holds c => c.skip (holds ≠ (i.a != 0))) c
    | .test => .ok (c.skip (P.isTruthy (c.regs i.a) ≠ (i.c != 0)))
    | .jmp => .ok (c.jump i.sbx)
    | .forPrep =>
        operate (P.forPrep (c.regs i.a) (c.regs (i.a + 1)) (c.regs (i.a + 2)))
          (fun r c => (((c.set i.a r.1).set (i.a + 1) r.2.1).set (i.a + 2) r.2.2).jump i.sbx) c
    | .forLoop =>
        match P.forLoop (c.regs i.a) (c.regs (i.a + 1)) (c.regs (i.a + 2)) with
        | some idx => .ok (((c.set i.a idx).set (i.a + 3) idx).jump i.sbx)
        | none => .ok c
    | .tForCall =>
        operate (P.call (some i.c) (c.regs i.a) [c.regs (i.a + 1), c.regs (i.a + 2)])
          (fun values c => c.place P (i.a + 3) (P.adjust (some i.c) values)) c
    | .tForLoop =>
        if P.isNil (c.regs (i.a + 1)) then .ok c
        else .ok ((c.set i.a (c.regs (i.a + 1))).jump i.sbx)
    | .setList =>
        let last := if i.b = 0 then c.top else i.a + 1 + i.b
        operate (P.setList (c.regs i.a) (((i.c : Int) - 1) * 50) (c.between (i.a + 1) last))
          (fun _ c => c) c
    | .vararg =>
        let values := P.adjust (wantedOf i.b) varargs
        .ok { c with
          regs := fun r => if r < i.a then c.regs r else (values[r - i.a]?).getD (c.regs r)
          top := if i.b = 0 then i.a + values.length else c.top }
    | .call =>
        let wanted := wantedOf i.c
        operate (P.call wanted (c.regs i.a) (c.operands (i.a + 1) i.b))
          (fun values c => c.place P i.a (P.adjust wanted values)) c
    | .tailCall =>
        finish (P.call none (c.regs i.a) (c.operands (i.a + 1) i.b)) c
    | .return => .error (.returned (c.operands i.a i.b) c.world)
    | .closure => .error .panicked

def advance (c : Config V σ) : Except (Outcome V σ ε) (Config V σ) :=
  match p.code[c.pc]? with
  | some i => exec P p varargs i { c with pc := c.pc + 1 }
  | none => .error .panicked

end Dispatch

end Luatier.Lowering
