import Mathlib.Data.UInt
import Luatier.Lib.Strtod

/-!
# The lexer

The source is the bytes that are still to be read, with the line and the column of the
first of them.  A loop of the scanner that stops at the first byte outside a class takes
the bytes of that class; the others recurse on what is left.
-/

namespace Luatier

open CLocale CStdlib Numerals Binary64

namespace Lexer

inductive TokenKind where
  | eof | identifier | number | integer | string
  | char
  | vararg
  | kwAnd | kwBreak | kwDo | kwElse | kwElseif | kwEnd | kwFalse | kwFor | kwFunction
  | kwGoto | kwIf | kwIn | kwLocal | kwNil | kwNot | kwOr | kwRepeat | kwReturn | kwThen
  | kwTrue | kwUntil | kwWhile
  | plus | minus | star | slash | percent | caret | hash | amp | tilde | pipe
  | ltLt | gtGt | slashSlash | eqEq | tildeEq | ltEq | gtEq | lt | gt | eq
  | lParen | rParen | lBrace | rBrace | lBracket | rBracket | colonColon
  | semi | colon | comma | dot | dotDot | dotDotDot
  deriving DecidableEq, Repr

structure Token where
  kind : TokenKind := .eof
  text : List UInt8 := []
  near : List UInt8 := []
  number : Word := 0
  integer : Int64 := 0
  line : Nat := 1
  col : Nat := 1
  deriving DecidableEq, Repr

/-- The text of a panic, and the source text it is near. -/
inductive LexError where
  | message (message : String)
  | near (message : String) (text : List UInt8)
  -- `std::length_error` of `std::string::append`
  | length
  deriving DecidableEq, Repr

end Lexer

structure Lexer where
  rest : List UInt8
  line : Nat := 1
  col : Nat := 1
  peeked : Option Lexer.Token := none
  deriving DecidableEq, Repr

namespace Lexer

def new (src : List UInt8) : Lexer :=
  if src.head? = some '#'.toUInt8 then
    match src.dropWhile (· ≠ '\n'.toUInt8) with
    | _ :: rest => { rest, line := 2 }
    | [] => { rest := [] }
  else { rest := src }

variable (lx : Lexer)

def eos : Bool := lx.rest.isEmpty

def peekChar (n : Nat) : UInt8 := lx.rest.getD n 0

def isNewline (c : UInt8) : Bool := c == '\n'.toUInt8 || c == '\r'.toUInt8

def get : Lexer :=
  match lx.rest with
  | [] => lx
  | c :: rest => { lx with rest, col := if isNewline c then lx.col else lx.col + 1 }

def matchChar (c : UInt8) : Option Lexer := if lx.peekChar 0 = c then some lx.get else none

def currIsNewline : Bool := isNewline (lx.peekChar 0)

def incline : Lexer :=
  let old := lx.peekChar 0
  let behind := lx.get
  let behind := if behind.currIsNewline ∧ behind.peekChar 0 ≠ old then behind.get else behind
  { behind with line := behind.line + 1, col := 1 }

def skip (p : UInt8 → Bool) : Lexer :=
  { lx with rest := lx.rest.dropWhile p, col := lx.col + (lx.rest.takeWhile p).length }

def run (p : UInt8 → Bool) : List UInt8 := lx.rest.takeWhile p

def countEquals : Int32 := Int32.ofNat (lx.run (· == '='.toUInt8)).length

def isBlank (c : UInt8) : Bool :=
  c == ' '.toUInt8 || c == '\t'.toUInt8 || c == 12 || c == 11

variable {lx}

theorem get_length_lt (h : lx.eos = false) : lx.get.rest.length < lx.rest.length := by
  cases hrest : lx.rest <;> simp_all [eos, get]

theorem get_length_le : lx.get.rest.length ≤ lx.rest.length := by
  cases hrest : lx.rest <;> simp_all [get]

theorem skip_length_le (p : UInt8 → Bool) : (lx.skip p).rest.length ≤ lx.rest.length :=
  (List.dropWhile_suffix p).length_le

theorem incline_length_lt (h : lx.eos = false) : lx.incline.rest.length < lx.rest.length := by
  have hfirst := get_length_lt h
  have hsecond : lx.get.get.rest.length ≤ lx.get.rest.length := get_length_le
  simp only [incline]
  split <;> simp <;> omega

theorem eos_of_peekChar {c : UInt8} (hc : c ≠ 0) (h : lx.peekChar 0 = c) : lx.eos = false := by
  cases hrest : lx.rest with
  | nil => exact absurd h (by simp [peekChar, hrest, hc.symm])
  | cons d rest => simp [eos, hrest]

theorem eos_of_class {p : UInt8 → Bool} (hp : p 0 = false) (h : p (lx.peekChar 0) = true) :
    lx.eos = false := by
  refine eos_of_peekChar (c := lx.peekChar 0) ?_ rfl
  intro hzero
  simp [hzero, hp] at h

variable (lx)

/-! ## White space and comments -/

def skipWhitespace (lx : Lexer) : Lexer :=
  if _h : isBlank (lx.peekChar 0) = true then skipWhitespace lx.get
  else if _h' : lx.currIsNewline = true then skipWhitespace lx.incline
  else lx
  termination_by lx.rest.length
  decreasing_by
    · exact get_length_lt (eos_of_class (by decide) _h)
    · exact incline_length_lt (eos_of_class (by decide) _h')

def skipLongComment (level : Int32) (lx : Lexer) : Except LexError Lexer :=
  if _h : lx.eos = true then .error (.message "unfinished long comment near <eof>")
  else if lx.currIsNewline then skipLongComment level lx.incline
  else if lx.peekChar 0 = ']'.toUInt8 then
    let behind := lx.get.skip (· == '='.toUInt8)
    match if lx.get.countEquals = level then behind.matchChar ']'.toUInt8 else none with
    | some lx => .ok lx
    | none => skipLongComment level behind
  else skipLongComment level lx.get
  termination_by lx.rest.length
  decreasing_by
    · exact incline_length_lt (Bool.not_eq_true _ ▸ _h)
    · exact (skip_length_le _).trans_lt (get_length_lt (Bool.not_eq_true _ ▸ _h))
    · exact get_length_lt (Bool.not_eq_true _ ▸ _h)

variable {lx}

theorem skipWhitespace_length_le : (skipWhitespace lx).rest.length ≤ lx.rest.length := by
  fun_induction skipWhitespace lx with
  | case1 lx h ih => exact ih.trans get_length_le
  | case2 lx h h' ih => exact ih.trans (incline_length_lt (eos_of_class (by decide) h')).le
  | case3 lx h h' => exact le_rfl

theorem matchChar_length_le {c : UInt8} {lx' : Lexer} (h : lx.matchChar c = some lx') :
    lx'.rest.length ≤ lx.rest.length := by
  simp only [matchChar, Option.ite_none_right_eq_some, Option.some.injEq] at h
  exact h.2 ▸ get_length_le

theorem skipLongComment_length_le {level : Int32} {lx' : Lexer}
    (h : skipLongComment level lx = .ok lx') : lx'.rest.length ≤ lx.rest.length := by
  fun_induction skipLongComment level lx with
  | case1 => simp at h
  | case2 lx heos hnewline ih =>
      exact (ih h).trans (incline_length_lt (Bool.not_eq_true _ ▸ heos)).le
  | case3 lx heos hnewline hbracket behind behind' hmatch =>
      obtain rfl := Except.ok.inj h
      split at hmatch
      · exact (matchChar_length_le hmatch).trans ((skip_length_le _).trans get_length_le)
      · simp at hmatch
  | case4 lx heos hnewline hbracket behind hmatch ih =>
      exact (ih h).trans ((skip_length_le _).trans get_length_le)
  | case5 lx heos hnewline hbracket ih => exact (ih h).trans get_length_le

/-- Behind the two dashes: to the end of the line, or of a long comment. -/
def skipComment (lx : Lexer) : Except LexError Lexer :=
  if lx.peekChar 0 = '['.toUInt8 then
    let level := lx.get.countEquals
    let opened := lx.get.skip (· == '='.toUInt8)
    if opened.peekChar 0 = '['.toUInt8 then skipLongComment level opened.get
    else .ok (opened.skip (!isNewline ·))
  else .ok (lx.skip (!isNewline ·))

theorem skipComment_length_le {lx' : Lexer} (h : skipComment lx = .ok lx') :
    lx'.rest.length ≤ lx.rest.length := by
  have hopened : (lx.get.skip (· == '='.toUInt8)).rest.length ≤ lx.rest.length :=
    (skip_length_le _).trans get_length_le
  simp only [skipComment] at h
  split_ifs at h
  · exact (skipLongComment_length_le h).trans (get_length_le.trans hopened)
  · exact Except.ok.inj h ▸ (skip_length_le _).trans hopened
  · exact Except.ok.inj h ▸ skip_length_le _

def skipWhitespaceAndComments (lx : Lexer) : Except LexError Lexer :=
  let start := skipWhitespace lx
  if _h : start.peekChar 0 = '-'.toUInt8 ∧ start.peekChar 1 = '-'.toUInt8 then
    match _hcomment : skipComment start.get.get with
    | .error e => .error e
    | .ok behind => skipWhitespaceAndComments behind
  else .ok start
  termination_by lx.rest.length
  decreasing_by
    calc behind.rest.length ≤ start.get.get.rest.length := skipComment_length_le _hcomment
      _ ≤ start.get.rest.length := get_length_le
      _ < start.rest.length := get_length_lt (eos_of_peekChar (by decide) _h.1)
      _ ≤ lx.rest.length := skipWhitespace_length_le

variable (lx)

/-! ## Numerals -/

def isHexLead : Bool :=
  lx.peekChar 0 == '0'.toUInt8 && (lx.peekChar 1 == 'x'.toUInt8 || lx.peekChar 1 == 'X'.toUInt8)

def numeralLead : List UInt8 × Lexer :=
  if lx.isHexLead then ([lx.peekChar 0, lx.peekChar 1], lx.get.get) else ([], lx)

def isMantissa (isHex : Bool) (c : UInt8) : Bool :=
  (if isHex then isxdigit c else isdigit c) || c == '.'.toUInt8

def isMark (isHex : Bool) (c : UInt8) : Bool :=
  if isHex then c == 'p'.toUInt8 || c == 'P'.toUInt8 else c == 'e'.toUInt8 || c == 'E'.toUInt8

def exponentSign : List UInt8 × Lexer :=
  if lx.peekChar 0 = '+'.toUInt8 ∨ lx.peekChar 0 = '-'.toUInt8 then ([lx.peekChar 0], lx.get)
  else ([], lx)

def numeralExponent (isHex : Bool) : List UInt8 × Lexer :=
  if isMark isHex (lx.peekChar 0) then
    let sign := lx.get.exponentSign
    (lx.peekChar 0 :: (sign.1 ++ sign.2.run isdigit), sign.2.skip isdigit)
  else ([], lx)

def numeralText : List UInt8 × Lexer :=
  let lead := lx.numeralLead
  let digits := lead.2.run (isMantissa lx.isHexLead)
  let exponent := (lead.2.skip (isMantissa lx.isHexLead)).numeralExponent lx.isHexLead
  (lead.1 ++ (digits ++ exponent.1), exponent.2)

def isHexNum (s : List UInt8) : Bool :=
  2 < s.length && s.getD 0 0 == '0'.toUInt8 &&
    (s.getD 1 0 == 'x'.toUInt8 || s.getD 1 0 == 'X'.toUInt8)

def pureInt (s : List UInt8) : Bool :=
  !s.contains '.'.toUInt8 &&
    (isHexNum s || (!s.contains 'e'.toUInt8 && !s.contains 'E'.toUInt8)) &&
    !s.contains 'p'.toUInt8 && !s.contains 'P'.toUInt8

/-- Hexadecimal wraps around; a decimal above the greatest integer is a float. -/
def integerToken (t : Token) : Option Token :=
  if isHexNum t.text then
    if (t.text.drop 2).all isxdigit then
      some { t with integer := (hexDigits (t.text.drop 2)).toInt64, kind := .integer }
    else none
  else
    match stoull t.text with
    | some (u, idx) =>
        if idx = t.text.length then
          if u < 2 ^ 63 then some { t with integer := u.toInt64, kind := .integer }
          else some { t with number := Binary64.ofInt u.toNat, kind := .number }
        else none
    | none => none

def lexNumber : Except LexError (Token × Lexer) :=
  let text := lx.numeralText.1
  let behind := lx.numeralText.2
  let t : Token := { text, line := lx.line, col := lx.col }
  match if pureInt text then integerToken t else none with
  | some t => .ok (t, behind)
  | none =>
      let (d, idx) := strtod '.'.toUInt8 text
      if idx = 0 ∨ text.getD idx 0 ≠ 0 then .error (.near "malformed number" text)
      else .ok ({ t with number := d, kind := .number }, behind)

/-! ## Strings -/

def quotes : UInt8 := 34

def apostrophe : UInt8 := 39

def backslash : UInt8 := 92

def leftBrace : UInt8 := 123

def rightBrace : UInt8 := 125

def hexval (c : UInt8) : Nat :=
  if isdigit c then c.toNat - 48
  else if 97 ≤ c ∧ c ≤ 102 then c.toNat - 97 + 10
  else c.toNat - 65 + 10

/-- The byte that is next is part of what the error is near, unless the line ends there. -/
def escerror (message : String) (save : List UInt8) : LexError :=
  .near message (if !lx.eos && !lx.currIsNewline then save ++ [lx.peekChar 0] else save)

abbrev Escape := List UInt8 × List UInt8 × Lexer

def letterEscape (e : UInt8) : Option UInt8 :=
  if e = 'a'.toUInt8 then some 7
  else if e = 'b'.toUInt8 then some 8
  else if e = 'f'.toUInt8 then some 12
  else if e = 'n'.toUInt8 then some 10
  else if e = 'r'.toUInt8 then some 13
  else if e = 't'.toUInt8 then some 9
  else if e = 'v'.toUInt8 then some 11
  else if e = backslash ∨ e = apostrophe ∨ e = quotes then some e
  else none

def isHexNext : Bool := !lx.eos && isxdigit (lx.peekChar 0)

def hexEscape (save : List UInt8) : Except LexError Escape :=
  if !lx.isHexNext then .error (lx.escerror "hexadecimal digit expected" save)
  else
    let hi := lx.peekChar 0
    let second := lx.get
    if !second.isHexNext then
      .error (second.escerror "hexadecimal digit expected" (save ++ [hi]))
    else
      let lo := second.peekChar 0
      .ok ([UInt8.ofNat ((hexval hi <<< 4) ||| hexval lo)], save ++ [hi, lo], second.get)

/-- The code point of hexadecimal digits, with the save buffer behind them. -/
def codePoint : List UInt8 → Nat → List UInt8 → Except LexError (Nat × List UInt8)
  | [], cp, save => .ok (cp, save)
  | h :: digits, cp, save =>
      if (cp <<< 4) + hexval h > 0x10FFFF then .error (.near "UTF-8 value too large" (save ++ [h]))
      else codePoint digits ((cp <<< 4) + hexval h) (save ++ [h])

def continuation (cp shift : Nat) : UInt8 := UInt8.ofNat (0x80 ||| ((cp >>> shift) &&& 0x3F))

def utf8Bytes (cp : Nat) : List UInt8 :=
  if cp ≤ 0x7F then [UInt8.ofNat cp]
  else if cp ≤ 0x7FF then [UInt8.ofNat (0xC0 ||| ((cp >>> 6) &&& 0x1F)), continuation cp 0]
  else if cp ≤ 0xFFFF then
    [UInt8.ofNat (0xE0 ||| ((cp >>> 12) &&& 0x0F)), continuation cp 6, continuation cp 0]
  else
    [UInt8.ofNat (0xF0 ||| ((cp >>> 18) &&& 0x07)), continuation cp 12, continuation cp 6,
      continuation cp 0]

def utf8Escape (save : List UInt8) : Except LexError Escape :=
  let opened := lx.get
  if lx.peekChar 0 ≠ leftBrace then .error (lx.escerror "missing '\x7b'" save)
  else if !opened.isHexNext then
    .error (opened.escerror "hexadecimal digit expected" (save ++ [leftBrace]))
  else
    let behind := opened.skip isxdigit
    match codePoint (opened.run isxdigit) 0 (save ++ [leftBrace]) with
    | .error e => .error e
    | .ok (cp, save) =>
        if behind.peekChar 0 ≠ rightBrace then .error (behind.escerror "missing '\x7d'" save)
        else .ok (utf8Bytes cp, save ++ [rightBrace], behind.get)

def decimalEscape (e : UInt8) (save : List UInt8) : Except LexError Escape :=
  let digits := (lx.rest.take 2).takeWhile isdigit
  let behind := digits.foldl (fun lx _ => lx.get) lx
  let v := ofDigits 10 (e :: digits)
  if v > 255 then .error (behind.escerror "decimal escape too large" (save ++ digits))
  else .ok ([UInt8.ofNat v], save ++ digits, behind)

/-- The escape whose first byte behind the backslash is next; `save` ends in the
backslash. -/
def lexEscape (save : List UInt8) : Except LexError Escape :=
  let e := lx.peekChar 0
  let behind := lx.get
  match letterEscape e with
  | some c => .ok ([c], save ++ [e], behind)
  | none =>
      if e = 'x'.toUInt8 then behind.hexEscape (save ++ [e])
      else if e = 'u'.toUInt8 then behind.utf8Escape (save ++ [e])
      else if e = 'z'.toUInt8 then .ok ([], save.dropLast, skipWhitespace behind)
      else if isdigit e then behind.decimalEscape e (save ++ [e])
      else .error (.near "invalid escape sequence" (save ++ [e]))

section EscapeLength

variable {lx} {save : List UInt8} {escape : Escape}

theorem hexEscape_length_le (h : lx.hexEscape save = .ok escape) :
    escape.2.2.rest.length ≤ lx.rest.length := by
  simp only [hexEscape] at h
  split_ifs at h
  exact Except.ok.inj h ▸ get_length_le.trans get_length_le

theorem utf8Escape_length_le (h : lx.utf8Escape save = .ok escape) :
    escape.2.2.rest.length ≤ lx.rest.length := by
  simp only [utf8Escape] at h
  split_ifs at h
  · split at h <;> simp at h
  · split at h
    · simp at h
    · exact Except.ok.inj h ▸ get_length_le.trans ((skip_length_le _).trans get_length_le)

theorem digits_length_le (digits : List UInt8) :
    (digits.foldl (fun lx _ => lx.get) lx).rest.length ≤ lx.rest.length := by
  induction digits generalizing lx with
  | nil => exact le_rfl
  | cons d digits ih => exact ih.trans get_length_le

theorem lexEscape_length_le (h : lx.lexEscape save = .ok escape) :
    escape.2.2.rest.length ≤ lx.rest.length := by
  simp only [lexEscape] at h
  split at h
  · exact Except.ok.inj h ▸ get_length_le
  · split_ifs at h
    · exact (hexEscape_length_le h).trans get_length_le
    · exact (utf8Escape_length_le h).trans get_length_le
    · exact Except.ok.inj h ▸ skipWhitespace_length_le.trans get_length_le
    · simp only [decimalEscape] at h
      split_ifs at h
      exact Except.ok.inj h ▸ (digits_length_le _).trans get_length_le

end EscapeLength

def lexStringBody (quote : UInt8) (lx : Lexer) (out save : List UInt8) : Except LexError Escape :=
  let c := lx.peekChar 0
  let behind := lx.get
  if _h : lx.eos = true then .error (.message "unfinished string near <eof>")
  else if lx.currIsNewline then .error (.near "unfinished string" save)
  else if c = quote then .ok (out, save ++ [c], behind)
  else if c = backslash then
    if _h' : behind.eos = true then .error (.message "unfinished string near <eof>")
    else if behind.currIsNewline then
      -- one newline stays in the save buffer, in the place of the backslash
      lexStringBody quote behind.incline (out ++ ['\n'.toUInt8]) (save ++ ['\n'.toUInt8])
    else
      match _hescape : behind.lexEscape (save ++ [c]) with
      | .error e => .error e
      | .ok escape => lexStringBody quote escape.2.2 (out ++ escape.1) escape.2.1
  else lexStringBody quote behind (out ++ [c]) (save ++ [c])
  termination_by lx.rest.length
  decreasing_by
    · exact (incline_length_lt (Bool.not_eq_true _ ▸ _h')).trans_le get_length_le
    · exact (lexEscape_length_le _hescape).trans_lt (get_length_lt (Bool.not_eq_true _ ▸ _h))
    · exact get_length_lt (Bool.not_eq_true _ ▸ _h)

def lexString (quote : UInt8) : Except LexError (Token × Lexer) :=
  match lexStringBody quote lx.get [] [quote] with
  | .error e => .error e
  | .ok (text, near, behind) =>
      .ok ({ kind := .string, text, near, line := lx.line, col := lx.col }, behind)

/-- A bracket that does not close the string belongs to it, and what follows is read
again. -/
def lexLongStringBody (level : Int32) (lx : Lexer) (out near : List UInt8) :
    Except LexError Escape :=
  let c := lx.peekChar 0
  let behind := lx.get
  let equals := behind.run (· == '='.toUInt8)
  let closing := behind.skip (· == '='.toUInt8)
  if _h : lx.eos = true then .error (.message "unfinished long string near <eof>")
  else if lx.currIsNewline then
    lexLongStringBody level lx.incline (out ++ ['\n'.toUInt8]) (near ++ ['\n'.toUInt8])
  else if c = ']'.toUInt8 ∧ behind.countEquals = level ∧ closing.peekChar 0 = ']'.toUInt8 then
    .ok (out, near ++ c :: (equals ++ [']'.toUInt8]), closing.get)
  else lexLongStringBody level behind (out ++ [c]) (near ++ [c])
  termination_by lx.rest.length
  decreasing_by
    · exact incline_length_lt (Bool.not_eq_true _ ▸ _h)
    · exact get_length_lt (Bool.not_eq_true _ ▸ _h)

/-- Behind the opening brackets; a newline right behind them is no part of the string. -/
def lexLongString (level : Int32) : Except LexError (Token × Lexer) :=
  -- a negative level is too long as a `size_t`
  if level < 0 then .error .length
  else
    let opening := '['.toUInt8 ::
      (List.replicate level.toInt.toNat '='.toUInt8 ++ ['['.toUInt8])
    let start := if lx.currIsNewline then lx.incline else lx
    match lexLongStringBody level start [] opening with
    | .error e => .error e
    | .ok (text, near, behind) =>
        .ok ({ kind := .string, text, near, line := lx.line, col := lx.col }, behind)

/-! ## Tokens -/

def keywords : List (List Char × TokenKind) :=
  [(['a', 'n', 'd'], .kwAnd), (['b', 'r', 'e', 'a', 'k'], .kwBreak), (['d', 'o'], .kwDo),
    (['e', 'l', 's', 'e'], .kwElse), (['e', 'l', 's', 'e', 'i', 'f'], .kwElseif),
    (['e', 'n', 'd'], .kwEnd), (['f', 'a', 'l', 's', 'e'], .kwFalse), (['f', 'o', 'r'], .kwFor),
    (['f', 'u', 'n', 'c', 't', 'i', 'o', 'n'], .kwFunction), (['g', 'o', 't', 'o'], .kwGoto),
    (['i', 'f'], .kwIf), (['i', 'n'], .kwIn), (['l', 'o', 'c', 'a', 'l'], .kwLocal),
    (['n', 'i', 'l'], .kwNil), (['n', 'o', 't'], .kwNot), (['o', 'r'], .kwOr),
    (['r', 'e', 'p', 'e', 'a', 't'], .kwRepeat), (['r', 'e', 't', 'u', 'r', 'n'], .kwReturn),
    (['t', 'h', 'e', 'n'], .kwThen), (['t', 'r', 'u', 'e'], .kwTrue),
    (['u', 'n', 't', 'i', 'l'], .kwUntil), (['w', 'h', 'i', 'l', 'e'], .kwWhile)]

def identChar (c : UInt8) : Bool := isalnum c || c == '_'.toUInt8

def identOrKw : Token × Lexer :=
  let text := lx.run identChar
  let kind := match keywords.find? fun kw => kw.1.map Char.toUInt8 == text with
    | some kw => kw.2
    | none => .identifier
  ({ kind, text, line := lx.line, col := lx.col }, lx.skip identChar)

def singles : List (Char × TokenKind) :=
  [('+', .plus), ('-', .minus), ('*', .star), ('%', .percent), ('^', .caret), ('#', .hash),
    ('&', .amp), ('|', .pipe), ('(', .lParen), (')', .rParen), ('\x7b', .lBrace),
    ('\x7d', .rBrace), (']', .rBracket), (';', .semi), (',', .comma)]

def lexSymbol (c : UInt8) : TokenKind × Lexer :=
  let orElse (next : Char) (long short : TokenKind) : TokenKind × Lexer :=
    match lx.matchChar next.toUInt8 with
    | some lx => (long, lx)
    | none => (short, lx)
  match singles.find? fun symbol => symbol.1.toUInt8 == c with
  | some symbol => (symbol.2, lx)
  | none =>
      if c = '/'.toUInt8 then orElse '/' .slashSlash .slash
      else if c = '~'.toUInt8 then orElse '=' .tildeEq .tilde
      else if c = '='.toUInt8 then orElse '=' .eqEq .eq
      else if c = '<'.toUInt8 then
        match lx.matchChar '<'.toUInt8 with
        | some lx => (.ltLt, lx)
        | none => orElse '=' .ltEq .lt
      else if c = '>'.toUInt8 then
        match lx.matchChar '>'.toUInt8 with
        | some lx => (.gtGt, lx)
        | none => orElse '=' .gtEq .gt
      else if c = ':'.toUInt8 then orElse ':' .colonColon .colon
      else if c = '.'.toUInt8 then
        match lx.matchChar '.'.toUInt8 with
        | some second =>
            match second.matchChar '.'.toUInt8 with
            | some third => (.dotDotDot, third)
            | none => (.dotDot, second)
        | none => (.dot, lx)
      else (.char, lx)

def lexBracket (t : Token) : Except LexError (Token × Lexer) :=
  let level := lx.get.countEquals
  let behind := lx.get.skip (· == '='.toUInt8)
  if behind.peekChar 0 = '['.toUInt8 then behind.get.lexLongString level
  else if level ≠ 0 then .error (.message "invalid long string delimiter")
  else .ok ({ t with kind := .lBracket }, behind)

def lexOne : Except LexError (Token × Lexer) :=
  match lx.skipWhitespaceAndComments with
  | .error e => .error e
  | .ok lx =>
      let t : Token := { line := lx.line, col := lx.col }
      let c := lx.peekChar 0
      if lx.eos then .ok ({ t with kind := .eof }, lx)
      else if isdigit c ∨ (c = '.'.toUInt8 ∧ isdigit (lx.peekChar 1)) then lx.lexNumber
      else if c = apostrophe ∨ c = quotes then lx.lexString c
      else if c = '['.toUInt8 then lx.lexBracket t
      else if isalpha c ∨ c = '_'.toUInt8 then .ok lx.identOrKw
      else
        let symbol := lx.get.lexSymbol c
        let integer : Int64 := if symbol.1 = .char then Int64.ofNat c.toNat else 0
        .ok ({ t with kind := symbol.1, integer }, symbol.2)

def next : Except LexError (Token × Lexer) :=
  match lx.peeked with
  | some t => .ok (t, { lx with peeked := none })
  | none => lx.lexOne

def peek : Except LexError (Token × Lexer) :=
  match lx.peeked with
  | some t => .ok (t, lx)
  | none =>
      match lx.lexOne with
      | .error e => .error e
      | .ok (t, behind) => .ok (t, { behind with peeked := some t })

end Lexer

end Luatier
