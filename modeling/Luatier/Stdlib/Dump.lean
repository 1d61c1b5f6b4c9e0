import Luatier.Lib.Binary64
import Luatier.Lib.Codec

/-!
# Binary chunks

`string.dump` writes the tree of a prototype behind the header of the official
format, and `load` reads it back.  The body is the program's own: counts and
integers of 32 bits, then the elements.  A nested prototype that was compiled
from the same source as the one around it leaves its source name out.
-/

namespace Luatier.Dump

open Binary64 Codec Codec.Reader

/-- The kinds of constants that a prototype has; strings by their contents. -/
inductive Const where
  | nil
  | bool (b : Bool)
  | int (n : Int64)
  | float (w : Word)
  | string (s : List UInt8)
  deriving DecidableEq, Repr

structure UpvalDesc where
  instack : Bool := false
  idx : UInt8 := 0
  name : List UInt8 := []
  deriving DecidableEq, Repr

structure LocVar where
  name : List UInt8 := []
  reg : Int32 := 0
  startpc : Int32 := 0
  endpc : Int32 := 0
  deriving DecidableEq, Repr

structure Proto where
  numparams : Int32 := 0
  isVararg : Bool := false
  maxstack : Int32 := 0
  code : List UInt32 := []
  constants : List Const := []
  source : List UInt8 := []
  linedefined : Int32 := 0
  lastlinedefined : Int32 := 0
  protos : List Proto := []
  upvalues : List UpvalDesc := []
  lineinfo : List Int32 := []
  locvars : List LocVar := []

/-! ## The writer -/

def putWord (n : Nat) {w : Nat} (v : BitVec w) : List UInt8 :=
  (List.range n).map fun i => ⟨((v >>> (i * 8)) &&& 0xFF).setWidth 8⟩

def putU32 (v : UInt32) : List UInt8 := putWord 4 v.toBitVec

def putU64 (v : UInt64) : List UInt8 := putWord 8 v.toBitVec

def putInt (n : Int32) : List UInt8 := putU32 n.toUInt32

def putI64 (n : Int64) : List UInt8 := putU64 n.toUInt64

def putF64 (w : Word) : List UInt8 := putU64 w

def putBool (b : Bool) : List UInt8 := [if b then 1 else 0]

def putSize (n : Nat) : List UInt8 := putU32 (UInt32.ofNat n)

def putStr (s : List UInt8) : List UInt8 := putSize s.length ++ s

def putAll {α : Type} (put : α → List UInt8) (xs : List α) : List UInt8 :=
  putSize xs.length ++ xs.flatMap put

def Const.tag : Const → UInt8
  | .nil => 0
  | .bool _ => 1
  | .int _ => 2
  | .float _ => 3
  | .string _ => 4

def writeConst (k : Const) : List UInt8 :=
  k.tag ::
    match k with
    | .nil => []
    | .bool b => putBool b
    | .int n => putI64 n
    | .float w => putF64 w
    | .string s => putStr s

def writeUpval (strip : Bool) (uv : UpvalDesc) : List UInt8 :=
  putBool uv.instack ++ uv.idx :: putStr (if strip then [] else uv.name)

def writeLocVar (lv : LocVar) : List UInt8 :=
  putStr lv.name ++ putInt lv.reg ++ putInt lv.startpc ++ putInt lv.endpc

def strippedSource : List UInt8 := [61, 63]

def effectiveSource (strip : Bool) (source : List UInt8) : List UInt8 :=
  if strip then strippedSource else source

def writeSource (source : List UInt8) (parentSource : Option (List UInt8)) : List UInt8 :=
  putStr (if parentSource = some source then [] else source)

def writeHead (strip : Bool) (parentSource : Option (List UInt8)) (p : Proto) : List UInt8 :=
  putInt p.numparams ++ putBool p.isVararg ++ putInt p.maxstack ++
    putAll putU32 p.code ++ putAll writeConst p.constants ++
    writeSource (effectiveSource strip p.source) parentSource ++
    putInt p.linedefined ++ putInt p.lastlinedefined

def writeTail (strip : Bool) (p : Proto) : List UInt8 :=
  putAll (writeUpval strip) p.upvalues ++
    if strip then putSize 0 ++ putSize 0
    else putAll putInt p.lineinfo ++ putAll writeLocVar p.locvars

mutual

def writeProto (strip : Bool) (parentSource : Option (List UInt8)) : Proto → List UInt8
  | ⟨numparams, isVararg, maxstack, code, constants, source, linedefined,
      lastlinedefined, protos, upvalues, lineinfo, locvars⟩ =>
    let p : Proto := ⟨numparams, isVararg, maxstack, code, constants, source, linedefined,
      lastlinedefined, [], upvalues, lineinfo, locvars⟩
    writeHead strip parentSource p ++ putSize protos.length ++
      writeProtos strip (some (effectiveSource strip source)) protos ++
      writeTail strip p

def writeProtos (strip : Bool) (parentSource : Option (List UInt8)) :
    List Proto → List UInt8
  | [] => []
  | p :: ps => writeProto strip parentSource p ++ writeProtos strip parentSource ps

end

def luaSig : List UInt8 := [27, 76, 117, 97]
def luacVersion : UInt8 := 0x53
def luacFormat : UInt8 := 0
def luacData : List UInt8 := [0x19, 0x93, 13, 10, 0x1a, 10]
def luacInt : Int64 := 0x5678
def luacNum : Word := 0x4077280000000000

/-- The sizes of `int`, `size_t`, an instruction, an integer and a float. -/
def headerSizes : List UInt8 := [4, 8, 4, 8, 8]

def header : List UInt8 :=
  luaSig ++ [luacVersion, luacFormat] ++ luacData ++ headerSizes ++ putI64 luacInt ++
    putF64 luacNum

def dumpProto (p : Proto) (strip : Bool) : List UInt8 :=
  header ++ [UInt8.ofNat p.upvalues.length] ++ putBool strip ++ writeProto strip none p

/-! ## The reader -/

abbrev ByteReader := Reader UInt8 String

def getU8 : ByteReader UInt8
  | [] => .error "truncated"
  | b :: rest => .ok (b, rest)

def joinBytes {w : Nat} (v : BitVec w) (i : Nat) : List UInt8 → BitVec w
  | [] => v
  | b :: bs => joinBytes (v ||| (b.toBitVec.setWidth w <<< (i * 8))) (i + 1) bs

def getWord (n w : Nat) : ByteReader (BitVec w) := do
  let bs ← times getU8 n
  pure (joinBytes 0 0 bs)

def getU32 : ByteReader UInt32 := do
  let v ← getWord 4 32
  pure ⟨v⟩

def getU64 : ByteReader UInt64 := do
  let v ← getWord 8 64
  pure ⟨v⟩

def getInt : ByteReader Int32 := do
  let v ← getU32
  pure v.toInt32

def getI64 : ByteReader Int64 := do
  let v ← getU64
  pure v.toInt64

def getF64 : ByteReader Word := getU64

def getBool : ByteReader Bool := do
  let b ← getU8
  pure (b != 0)

def getBytes (n : Nat) : ByteReader (List UInt8) := fun s =>
  if s.length < n then .error "truncated" else .ok (s.take n, s.drop n)

def getStr : ByteReader (List UInt8) := do
  let n ← getU32
  getBytes n.toNat

def getAll {α : Type} (get : ByteReader α) : ByteReader (List α) := do
  let n ← getU32
  times get n.toNat

def readConstOf (tag : UInt8) : ByteReader Const :=
  match tag with
  | 0 => pure .nil
  | 1 => do
      let b ← getBool
      pure (.bool b)
  | 2 => do
      let n ← getI64
      pure (.int n)
  | 3 => do
      let w ← getF64
      pure (.float w)
  | 4 => do
      let s ← getStr
      pure (.string s)
  | _ => throw "undump: bad constant tag"

def readConst : ByteReader Const := do
  let tag ← getU8
  readConstOf tag

def readUpval : ByteReader UpvalDesc := do
  let instack ← getBool
  let idx ← getU8
  let name ← getStr
  pure { instack, idx, name }

def readLocVar : ByteReader LocVar := do
  let name ← getStr
  let reg ← getInt
  let startpc ← getInt
  let endpc ← getInt
  pure { name, reg, startpc, endpc }

def readHead (parentSource : List UInt8) : ByteReader Proto := do
  let numparams ← getInt
  let isVararg ← getBool
  let maxstack ← getInt
  let code ← getAll getU32
  let constants ← getAll readConst
  let src ← getStr
  let linedefined ← getInt
  let lastlinedefined ← getInt
  pure { numparams, isVararg, maxstack, code, constants, linedefined, lastlinedefined
         source := if src.isEmpty then parentSource else src }

def readTail (p : Proto) : ByteReader Proto := do
  let upvalues ← getAll readUpval
  let lineinfo ← getAll getInt
  let locvars ← getAll readLocVar
  pure { p with upvalues, lineinfo, locvars }

/-- `read_proto`; every nested call reads further on in the blob. -/
def readProto : Nat → List UInt8 → ByteReader Proto
  | 0, _ => throw "out of fuel"
  | fuel + 1, parentSource => do
      let p ← readHead parentSource
      let protos ← getAll (readProto fuel p.source)
      readTail { p with protos }

def expectByte (b : UInt8) (what : String) : ByteReader Unit := do
  let c ← getU8
  if c = b then pure () else throw what

def expectBytes (what : String) : List UInt8 → ByteReader Unit
  | [] => pure ()
  | b :: bs => do
      expectByte b what
      expectBytes what bs

def expectI64 (n : Int64) (what : String) : ByteReader Unit := do
  let m ← getI64
  if m = n then pure () else throw what

def expectF64 (w : Word) (what : String) : ByteReader Unit := do
  let v ← getF64
  if (decode v).eq (decode w) then pure () else throw what

def checkHeader : ByteReader Unit := do
  expectBytes "not a binary chunk" luaSig
  expectByte luacVersion "version mismatch"
  expectByte luacFormat "format mismatch"
  expectBytes "corrupted" luacData
  expectByte 4 "int size mismatch"
  expectByte 8 "size_t size mismatch"
  expectByte 4 "instruction size mismatch"
  expectByte 8 "lua_Integer size mismatch"
  expectByte 8 "lua_Number size mismatch"
  expectI64 luacInt "endianness mismatch"
  expectF64 luacNum "float format mismatch"

def isProtoDump (blob : List UInt8) : Bool := blob.head? = some 0x1B

def readChunk (fuel : Nat) (name : List UInt8) : ByteReader Proto := do
  checkHeader
  let _nups ← getU8
  let _strip ← getBool
  readProto fuel name

def undumpProto (blob name : List UInt8) : Except String Proto :=
  if !isProtoDump blob then .error "not a binary chunk"
  else (readChunk (blob.length + 1) name blob).map Prod.fst

end Luatier.Dump
