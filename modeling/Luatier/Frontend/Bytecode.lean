import Mathlib.Data.Nat.Basic
import Mathlib.Tactic.Ring

/-!
# Instructions

An instruction is an opcode with operands of 8 and 16 bits.  The encoders cut
their arguments to these widths.  A piece of code that is left abstract takes one
`leaf` instruction.
-/

namespace Luatier.Lowering

inductive OpCode where
  | move | loadNil | loadBool | loadInt | loadK
  | add | sub | mul | div | idiv | mod | pow | band | bor | bxor | shl | shr
  | unm | bnot | not | len | concat | eq | lt | le | test
  | newTable | getTable | setTable | getField | setField | getI | setI
  | getTabUp | setTabUp | setList | closure | getUpval | setUpval
  | call | tailCall | return | vararg | self | jmp
  | forPrep | forLoop | tForCall | tForLoop
  deriving DecidableEq, Repr

inductive Instruction (α : Type) where
  | abc (op : OpCode) (a b c : Nat)
  | abx (op : OpCode) (a bx : Nat)
  | leaf (x : α)
  deriving DecidableEq, Repr

variable {α : Type}

/-- `static_cast<uint8_t>` -/
def toByte (n : Int) : Nat := (n % 256).toNat

def encodeAbc (op : OpCode) (a b c : Nat) : Instruction α :=
  .abc op (a % 256) (b % 256) (c % 256)

def encodeAbx (op : OpCode) (a bx : Nat) : Instruction α :=
  .abx op (a % 256) (bx % 65536)

def encodeAsbx (op : OpCode) (a : Nat) (sbx : Int) : Instruction α :=
  encodeAbx op a ((sbx + 32768) % 65536).toNat

namespace Instruction

def op : Instruction α → Option OpCode
  | .abc op _ _ _ => some op
  | .abx op _ _ => some op
  | .leaf _ => none

def a : Instruction α → Nat
  | .abc _ a _ _ => a
  | .abx _ a _ => a
  | .leaf _ => 0

def b : Instruction α → Nat
  | .abc _ _ b _ => b
  | .abx _ _ bx => bx % 256
  | .leaf _ => 0

def bx : Instruction α → Nat
  | .abc _ _ b c => b + 256 * c
  | .abx _ _ bx => bx
  | .leaf _ => 0

def sbx (i : Instruction α) : Int := i.bx - 32768

def isOp (i : Instruction α) (op : OpCode) : Bool := i.op == some op

end Instruction

/-- A distance that the signed field of a jump can hold. -/
def Fits (sbx : Int) : Prop := -32768 ≤ sbx ∧ sbx ≤ 32767

@[simp] theorem op_encodeAbc (op : OpCode) (a b c : Nat) :
    (encodeAbc op a b c : Instruction α).op = some op := rfl

@[simp] theorem op_encodeAsbx (op : OpCode) (a : Nat) (sbx : Int) :
    (encodeAsbx op a sbx : Instruction α).op = some op := rfl

@[simp] theorem a_encodeAsbx (op : OpCode) (a : Nat) (sbx : Int) :
    (encodeAsbx op a sbx : Instruction α).a = a % 256 := rfl

theorem sbx_encodeAsbx (op : OpCode) (a : Nat) (sbx : Int) :
    (encodeAsbx op a sbx : Instruction α).sbx = (sbx + 32768) % 65536 - 32768 := by
  show ((((sbx + 32768) % 65536).toNat % 65536 : Nat) : Int) - 32768 = _
  omega

theorem sbx_encodeAsbx_iff (op : OpCode) (a : Nat) (sbx : Int) :
    (encodeAsbx op a sbx : Instruction α).sbx = sbx ↔ Fits sbx := by
  rw [sbx_encodeAsbx, Fits]
  omega

end Luatier.Lowering
