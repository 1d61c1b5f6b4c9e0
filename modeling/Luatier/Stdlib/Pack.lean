import Luatier.Lib.Binary32
import Luatier.Lib.Codec

/-!
# `string.pack` and `string.unpack`

Both functions read the format with `getdetails` and go their own way with each
option.  A format is a C string: it ends at its first zero.  Sizes are those of a
64-bit machine; its byte order and the conversion of strings to numbers are left to
the `Host`.
-/

namespace Luatier.Pack

open Binary64

/-- Arguments and results; a string by its contents. -/
inductive Value where
  | int (n : Int64)
  | float (w : Word)
  | str (s : List UInt8)
  | other
  deriving DecidableEq, Repr

structure Host where
  nativeLittle : Bool
  /-- `try_to_number` on a string. -/
  strToNumber : List UInt8 → Option Value

/-- The text of an argument error of the second kind names the function that was
called. -/
inductive Failure where
  | panic (text : String)
  | argType (arg : Nat) (expected : String)
  deriving DecidableEq, Repr

def kMaxIntSize : Nat := 16

def kPackPad : UInt8 := 0

structure PackHeader where
  islittle : Bool
  maxalign : Nat := 1
  deriving DecidableEq, Repr

inductive PackOpt where
  | int | uint | float | char | string | zstr | padding | padalign | nop
  deriving DecidableEq, Repr

/-! ## Arguments -/

def checkAny (args : List Value) (arg : Nat) (what : String) : Except Failure Value :=
  match args[arg - 2]? with
  | none => .error (.panic (what ++ ": bad argument #" ++ toString arg))
  | some v => .ok v

/-- The lambda of `check_int`; the upper bound is the float `2 ^ 63`. -/
def fromNumber (arg : Nat) : Value → Except Failure Int64
  | .int n => .ok n
  | .float w =>
      match decode w with
      | .fin q =>
          if (⌊q⌋ : ℚ) = q ∧ -(2 ^ 63) ≤ q ∧ q ≤ 2 ^ 63 then
            .ok (Int64.ofInt (Datum.truncInt64 (.fin q)))
          else .error (.panic "number has no integer representation")
      | _ => .error (.panic "number has no integer representation")
  | _ => .error (.argType arg "integer")

def Host.tryToNumber (host : Host) : Value → Option Value
  | .str s => host.strToNumber s
  | .other => none
  | v => some v

def Host.checkInt (host : Host) (args : List Value) (arg : Nat) : Except Failure Int64 := do
  let v ← checkAny args arg "check_int"
  match host.tryToNumber v with
  | none => throw (.argType arg "integer")
  | some n => fromNumber arg n

def Host.checkNumber (host : Host) (args : List Value) (arg : Nat) : Except Failure Word := do
  let v ← checkAny args arg "check_number"
  match host.tryToNumber v with
  | some (.int n) => return Binary64.ofInt n.toInt
  | some (.float w) => return w
  | _ => throw (.argType arg "number")

def checkString (args : List Value) (arg : Nat) : Except Failure (List UInt8) := do
  match ← checkAny args arg "check_string" with
  | .str s => return s
  | _ => throw (.panic "string expected")

/-! ## Formats -/

def isDigit (c : UInt8) : Bool := '0'.toUInt8 ≤ c && c ≤ '9'.toUInt8

def digits (a : Nat) : List UInt8 → Nat × List UInt8
  | [] => (a, [])
  | c :: fmt =>
      if isDigit c ∧ a ≤ (2 ^ 31 - 1 - 9) / 10 then digits (a * 10 + (c.toNat - 48)) fmt
      else (a, c :: fmt)

def getnum : List UInt8 → Option Nat × List UInt8
  | [] => (none, [])
  | c :: fmt =>
      if isDigit c then
        let (a, fmt) := digits (c.toNat - 48) fmt
        (some a, fmt)
      else (none, c :: fmt)

def getnumlimit (fmt : List UInt8) (df : Nat) : Except Failure (Nat × List UInt8) :=
  let (n, fmt) := getnum fmt
  let sz := n.getD df
  if sz > kMaxIntSize ∨ sz = 0 then
    .error (.panic ("integral size (" ++ toString sz ++ ") out of limits [1,16]"))
  else .ok (sz, fmt)

structure OptionRead where
  opt : PackOpt
  size : Nat
  header : PackHeader
  rest : List UInt8

def Host.getoption (host : Host) (h : PackHeader) (opt : UInt8) (fmt : List UInt8) :
    Except Failure OptionRead := do
  let sized (kind : PackOpt) (size : Nat) : OptionRead := ⟨kind, size, h, fmt⟩
  match Char.ofUInt8 opt with
  | 'b' => return sized .int 1
  | 'B' => return sized .uint 1
  | 'h' => return sized .int 2
  | 'H' => return sized .uint 2
  | 'l' => return sized .int 8
  | 'L' => return sized .uint 8
  | 'j' => return sized .int 8
  | 'J' => return sized .uint 8
  | 'T' => return sized .uint 8
  | 'f' => return sized .float 4
  | 'd' => return sized .float 8
  | 'n' => return sized .float 8
  | 'i' => do
      let (size, fmt) ← getnumlimit fmt 4
      return ⟨.int, size, h, fmt⟩
  | 'I' => do
      let (size, fmt) ← getnumlimit fmt 4
      return ⟨.uint, size, h, fmt⟩
  | 's' => do
      let (size, fmt) ← getnumlimit fmt 8
      return ⟨.string, size, h, fmt⟩
  | 'c' =>
      match getnum fmt with
      | (none, _) => throw (.panic "missing size for format option 'c'")
      | (some size, fmt) => return ⟨.char, size, h, fmt⟩
  | 'z' => return sized .zstr 0
  | 'x' => return sized .padding 1
  | 'X' => return sized .padalign 0
  | ' ' | '\n' | '\t' | '\x0b' | '\x0c' | '\r' => return sized .nop 0
  | '<' => return ⟨.nop, 0, { h with islittle := true }, fmt⟩
  | '>' => return ⟨.nop, 0, { h with islittle := false }, fmt⟩
  | '=' => return ⟨.nop, 0, { h with islittle := host.nativeLittle }, fmt⟩
  | '!' => do
      let (maxalign, fmt) ← getnumlimit fmt 8
      return ⟨.nop, 0, { h with maxalign }, fmt⟩
  | c => throw (.panic ("invalid format option '" ++ c.toString ++ "'"))

structure Details extends OptionRead where
  ntoalign : Nat

def ntoalignOf (totalsize align : Nat) : Nat :=
  (align - (totalsize &&& (align - 1))) &&& (align - 1)

/-- The alignment of an option, and what is left of the format; `X` takes its
alignment from the option behind it. -/
def Host.alignment (host : Host) (o : OptionRead) :
    Except Failure (Nat × PackHeader × List UInt8) :=
  if o.opt = .padalign then
    match o.rest with
    | [] => throw (.panic "invalid next option for option 'X'")
    | c :: fmt => do
        let next ← host.getoption o.header c fmt
        if next.opt = .char ∨ next.size = 0 then
          throw (.panic "invalid next option for option 'X'")
        return (next.size, next.header, next.rest)
  else return (o.size, o.header, o.rest)

def Host.getdetails (host : Host) (h : PackHeader) (totalsize : Nat) (c : UInt8)
    (fmt : List UInt8) : Except Failure Details := do
  let o ← host.getoption h c fmt
  let (align, header, rest) ← host.alignment o
  if align ≤ 1 ∨ o.opt = .char then
    return { o with header, rest, ntoalign := 0 }
  else
    let align := min align header.maxalign
    if align &&& (align - 1) ≠ 0 then
      throw (.panic "format asks for alignment not power of 2")
    return { o with header, rest, ntoalign := ntoalignOf totalsize align }

/-! ## Encodings -/

def ordered (islittle : Bool) (bytes : List UInt8) : List UInt8 :=
  if islittle then bytes else bytes.reverse

/-- The first loop of `packint`: the bytes that are shifted out of a word. -/
def shiftedBytes : Nat → UInt64 → List UInt8
  | 0, _ => []
  | size + 1, n => (n &&& 0xFF).toUInt8 :: shiftedBytes size (n >>> 8)

def packint (n : UInt64) (islittle : Bool) (size : Nat) (neg : Bool) : List UInt8 :=
  let bytes := shiftedBytes size n
  let bytes :=
    if neg ∧ 8 < size then bytes.take 8 ++ List.replicate (size - 8) 0xFF else bytes
  ordered islittle bytes

/-- `memcpy` of a word of the machine, then `copy_endian`. -/
def Host.floatBytes (host : Host) (islittle : Bool) (size n : Nat) : List UInt8 :=
  let buff := ordered host.nativeLittle (Codec.bytes size n)
  if islittle = host.nativeLittle then buff else buff.reverse

def Host.floatOfBytes (host : Host) (islittle : Bool) (bytes : List UInt8) : Nat :=
  let buff := if islittle = host.nativeLittle then bytes else bytes.reverse
  Codec.value (ordered host.nativeLittle buff)

def unpackint (str : List UInt8) (islittle : Bool) (size : Nat) (issigned : Bool) :
    Except Failure Int64 :=
  let bytes := ordered islittle str
  let res : UInt64 := (bytes.take 8).foldr (fun b res => (res <<< 8) ||| b.toUInt64) 0
  if size < 8 then
    let mask : UInt64 := 1 <<< UInt64.ofNat (size * 8 - 1)
    .ok (if issigned then (res ^^^ mask) - mask else res).toInt64
  else
    let mask : UInt8 := if !issigned || 0 ≤ res.toInt64 then 0 else 0xFF
    if (bytes.drop 8).any (· ≠ mask) then
      .error (.panic (toString size ++ "-byte integer does not fit into Lua Integer"))
    else .ok res.toInt64

/-! ## The loops -/

/-- What a case of the `switch` of `str_pack` writes, what it adds to `totalsize`
besides the size, and where it leaves `arg`. -/
structure Packed where
  bytes : List UInt8
  extra : Nat
  arg : Nat

def Host.packItem (host : Host) (islittle : Bool) (size : Nat) (args : List Value)
    (arg : Nat) : PackOpt → Except Failure Packed
  | .int => do
      let n ← host.checkInt args arg
      if size < 8 ∧ (n.toInt < -(2 ^ (size * 8 - 1)) ∨ 2 ^ (size * 8 - 1) ≤ n.toInt) then
        throw (.panic "integer overflow")
      return ⟨packint n.toUInt64 islittle size (n < 0), 0, arg⟩
  | .uint => do
      let n ← host.checkInt args arg
      if size < 8 ∧ 2 ^ (size * 8) - 1 < n.toUInt64.toNat then
        throw (.panic "unsigned overflow")
      return ⟨packint n.toUInt64 islittle size false, 0, arg⟩
  | .float => do
      let n ← host.checkNumber args arg
      let bits := if size = 4 then (Binary32.narrow n).toNat else n.toNat
      return ⟨host.floatBytes islittle size bits, 0, arg⟩
  | .char => do
      let s ← checkString args arg
      if s.length > size then throw (.panic "string longer than given size")
      return ⟨s ++ List.replicate (size - s.length) kPackPad, 0, arg⟩
  | .string => do
      let s ← checkString args arg
      if size < 8 ∧ 2 ^ (size * 8) ≤ s.length then
        throw (.panic "string length does not fit in given size")
      return ⟨packint (UInt64.ofNat s.length) islittle size false ++ s, s.length, arg⟩
  | .zstr => do
      let s ← checkString args arg
      if 0 ∈ s then throw (.panic "string contains zeros")
      return ⟨s ++ [0], s.length + 1, arg⟩
  | .padding => return ⟨[kPackPad], 0, arg - 1⟩
  | .padalign => return ⟨[], 0, arg - 1⟩
  | .nop => return ⟨[], 0, arg - 1⟩

/-- A `size_t`. -/
def sizeT (n : Nat) : Nat := n % 2 ^ 64

/-- What a case of the `switch` of `str_unpack` pushes, and by how much it moves
`pos` besides the size. -/
structure Unpacked where
  value : Option Value
  extra : Nat

def Host.unpackItem (host : Host) (islittle : Bool) (size : Nat) (data : List UInt8)
    (pos : Nat) : PackOpt → Except Failure Unpacked
  | .int => do
      let res ← unpackint ((data.drop pos).take size) islittle size true
      return ⟨some (.int res), 0⟩
  | .uint => do
      let res ← unpackint ((data.drop pos).take size) islittle size false
      return ⟨some (.int res), 0⟩
  | .float =>
      let bits := host.floatOfBytes islittle ((data.drop pos).take size)
      let w := if size = 4 then Binary32.widen (UInt32.ofNat bits) else UInt64.ofNat bits
      .ok ⟨some (.float w), 0⟩
  | .char => .ok ⟨some (.str ((data.drop pos).take size)), 0⟩
  | .string => do
      let len ← unpackint ((data.drop pos).take size) islittle size false
      let len := len.toUInt64.toNat
      -- a stored length may be so great that the sum wraps
      if sizeT (pos + size + len) > data.length then throw (.panic "data string too short")
      return ⟨some (.str ((data.drop (pos + size)).take len)), len⟩
  | .zstr =>
      let s := (data.drop pos).takeWhile (· ≠ 0)
      .ok ⟨some (.str s), s.length + 1⟩
  | .padalign => .ok ⟨none, 0⟩
  | .padding => .ok ⟨none, 0⟩
  | .nop => .ok ⟨none, 0⟩

theorem digits_length (a : Nat) (fmt : List UInt8) :
    (digits a fmt).2.length ≤ fmt.length := by
  induction fmt generalizing a with
  | nil => exact le_rfl
  | cons c fmt ih =>
      rw [digits]
      split_ifs
      · exact (ih _).trans (Nat.le_succ _)
      · exact le_rfl

theorem getnum_length (fmt : List UInt8) : (getnum fmt).2.length ≤ fmt.length := by
  cases fmt with
  | nil => exact le_rfl
  | cons c fmt =>
      rw [getnum]
      split_ifs
      · exact (digits_length _ _).trans (Nat.le_succ _)
      · exact le_rfl

theorem getnumlimit_length {fmt rest : List UInt8} {df size : Nat}
    (h : getnumlimit fmt df = .ok (size, rest)) : rest.length ≤ fmt.length := by
  simp only [getnumlimit] at h
  split_ifs at h
  cases h
  exact getnum_length fmt

theorem Host.getoption_length {host : Host} {h : PackHeader} {c : UInt8}
    {fmt : List UInt8} {o : OptionRead} (ho : host.getoption h c fmt = .ok o) :
    o.rest.length ≤ fmt.length := by
  unfold Host.getoption at ho
  simp only at ho
  split at ho
  case h_13 | h_14 | h_15 | h_29 =>
    obtain ⟨⟨size, rest⟩, hsize, ho⟩ := StateFrame.except_bind_ok.mp ho
    cases ho
    exact getnumlimit_length hsize
  case h_16 =>
    have hlen := getnum_length fmt
    split at ho
    · cases ho
    · rename_i size rest hnum
      cases ho
      rw [hnum] at hlen
      exact hlen
  case h_30 => cases ho
  all_goals
    cases ho
    exact le_rfl

theorem Host.alignment_length {host : Host} {o : OptionRead} {align : Nat}
    {h : PackHeader} {rest : List UInt8} (ha : host.alignment o = .ok (align, h, rest)) :
    rest.length ≤ o.rest.length := by
  unfold Host.alignment at ha
  split_ifs at ha
  · split at ha
    · cases ha
    · rename_i c fmt hrest
      obtain ⟨next, hnext, ha⟩ := StateFrame.except_bind_ok.mp ha
      have hlen := getoption_length hnext
      simp only at ha
      split_ifs at ha
      · cases ha
      · cases ha
        rw [hrest]
        exact hlen.trans (Nat.le_succ _)
  · cases ha
    exact le_rfl

theorem Host.getdetails_length {host : Host} {h : PackHeader} {totalsize : Nat} {c : UInt8}
    {fmt : List UInt8} {d : Details} (hd : host.getdetails h totalsize c fmt = .ok d) :
    d.rest.length ≤ fmt.length := by
  obtain ⟨o, ho, hd⟩ := StateFrame.except_bind_ok.mp hd
  obtain ⟨⟨align, header, rest⟩, halign, hd⟩ := StateFrame.except_bind_ok.mp hd
  have hrest := (alignment_length halign).trans (getoption_length ho)
  simp only at hd
  split_ifs at hd
  · cases hd
    exact hrest
  · cases hd
  · cases hd
    exact hrest

/-- The loop of `str_pack`. -/
def Host.packLoop (host : Host) (args : List Value) (h : PackHeader) (totalsize arg : Nat)
    (out : List UInt8) : List UInt8 → Except Failure (List UInt8)
  | [] => .ok out
  | c :: fmt =>
      match _h : host.getdetails h totalsize c fmt with
      | .error e => .error e
      | .ok d =>
          match host.packItem d.header.islittle d.size args (arg + 1) d.opt with
          | .error e => .error e
          | .ok item =>
              host.packLoop args d.header (totalsize + (d.ntoalign + d.size) + item.extra)
                item.arg (out ++ List.replicate d.ntoalign kPackPad ++ item.bytes) d.rest
  termination_by fmt => fmt.length
  decreasing_by exact Nat.lt_succ_of_le (Host.getdetails_length _h)

/-- The loop of `str_unpack`. -/
def Host.unpackLoop (host : Host) (data : List UInt8) (h : PackHeader) (pos : Nat)
    (results : List Value) : List UInt8 → Except Failure (List Value × Nat)
  | [] => .ok (results, pos)
  | c :: fmt =>
      match _h : host.getdetails h pos c fmt with
      | .error e => .error e
      | .ok d =>
          if pos + d.ntoalign + d.size > data.length then
            .error (.panic "data string too short")
          else
            match host.unpackItem d.header.islittle d.size data (pos + d.ntoalign) d.opt with
            | .error e => .error e
            | .ok item =>
                host.unpackLoop data d.header (sizeT (pos + d.ntoalign + item.extra + d.size))
                  (results ++ item.value.toList) d.rest
  termination_by fmt => fmt.length
  decreasing_by exact Nat.lt_succ_of_le (Host.getdetails_length _h)

def cstring (s : List UInt8) : List UInt8 := s.takeWhile (· ≠ 0)

def Host.strPack (host : Host) (fmt : List UInt8) (args : List Value) :
    Except Failure (List UInt8) :=
  host.packLoop args { islittle := host.nativeLittle } 0 1 [] (cstring fmt)

/-- The index to start from, for the third argument of `str_unpack` if it has one;
zero and what lies in front of the string wrap round to no index. -/
def unpackStart (len : Nat) (init : Option Int64) : Nat :=
  let ipos := init.getD 1
  let ipos : Int64 :=
    if ipos < 0 then
      if (-ipos).toUInt64.toNat > len then 0 else Int64.ofNat len + ipos + 1
    else ipos
  (ipos.toUInt64 - 1).toNat

def Host.strUnpack (host : Host) (fmt data : List UInt8) (init : Option Int64) :
    Except Failure (List Value) := do
  let pos := unpackStart data.length init
  if pos > data.length then throw (.panic "initial position out of string")
  let (results, pos) ←
    host.unpackLoop data { islittle := host.nativeLittle } pos [] (cstring fmt)
  return results ++ [.int (Int64.ofNat (pos + 1))]

theorem sizeT_of_lt {n : Nat} (h : n < 2 ^ 64) : sizeT n = n := Nat.mod_eq_of_lt h

theorem unpackStart_none (len : Nat) : unpackStart len none = 0 := by
  have hone : ¬ (1 : Int64) < 0 := by decide
  simp only [unpackStart, Option.getD_none, if_neg hone]
  decide

end Luatier.Pack
