import Mathlib.Data.List.TakeWhile
import Luatier.Lib.CLocale
import Luatier.Lib.Rounding

/-!
# Numerals

The decimal and hexadecimal numerals of C: digits with a point among them or none, and
a scale behind an exponent mark.  They are read off the front of a text as far as they
go, and a text that is a numeral is read as a whole.
-/

namespace Numerals

open CLocale

inductive Sign where
  | plus
  | minus
  deriving DecidableEq, Repr

def Sign.byte : Sign → UInt8
  | .plus => 43
  | .minus => 45

def signText (sign : Option Sign) : List UInt8 := (sign.map Sign.byte).toList

def readSign : List UInt8 → Option Sign × List UInt8
  | [] => (none, [])
  | c :: s =>
      if c = 43 then (some .plus, s)
      else if c = 45 then (some .minus, s)
      else (none, c :: s)

/-- Hexadecimal numerals begin with `0x` or `0X`. -/
inductive Radix where
  | decimal
  | hexadecimal (upper : Bool)
  deriving DecidableEq, Repr

namespace Radix

def lead : Radix → List UInt8
  | .decimal => []
  | .hexadecimal upper => [48, if upper then 88 else 120]

def isDigit : Radix → UInt8 → Bool
  | .decimal => isdigit
  | .hexadecimal _ => isxdigit

def base : Radix → Nat
  | .decimal => 10
  | .hexadecimal _ => 16

def exponentMark : Radix → Bool → UInt8
  | .decimal, upper => if upper then 69 else 101
  | .hexadecimal _, upper => if upper then 80 else 112

def exponentBase : Radix → Nat
  | .decimal => 10
  | .hexadecimal _ => 2

def digitScale : Radix → Nat
  | .decimal => 1
  | .hexadecimal _ => 4

end Radix

structure Exponent where
  upper : Bool
  sign : Option Sign
  digits : List UInt8
  nonempty : digits ≠ []
  decimal : ∀ c ∈ digits, isdigit c = true

def Exponent.text (radix : Radix) (e : Exponent) : List UInt8 :=
  radix.exponentMark e.upper :: (signText e.sign ++ e.digits)

structure Numeral where
  radix : Radix
  whole : List UInt8
  fraction : Option (List UInt8)
  exponent : Option Exponent
  nonempty : whole ++ fraction.getD [] ≠ []
  digits : ∀ c ∈ whole ++ fraction.getD [], radix.isDigit c = true

/-! ## Reading -/

section Reading

variable (point : UInt8) (radix : Radix)

def fractionText : Option (List UInt8) → List UInt8
  | none => []
  | some digits => point :: digits

def exponentText (e : Option Exponent) : List UInt8 := (e.map (Exponent.text radix)).getD []

def Numeral.body (n : Numeral) : List UInt8 :=
  n.whole ++ (fractionText point n.fraction ++ exponentText n.radix n.exponent)

def Numeral.text (n : Numeral) : List UInt8 := n.radix.lead ++ n.body point

def readFraction : List UInt8 → Option (List UInt8) × List UInt8
  | [] => (none, [])
  | c :: s =>
      if c = point then (some (s.takeWhile radix.isDigit), s.dropWhile radix.isDigit)
      else (none, c :: s)

def readExponent : List UInt8 → Option Exponent × List UInt8
  | [] => (none, [])
  | c :: s =>
      if c = radix.exponentMark false ∨ c = radix.exponentMark true then
        if h : (readSign s).2.takeWhile isdigit ≠ [] then
          (some ⟨c = radix.exponentMark true, (readSign s).1, (readSign s).2.takeWhile isdigit, h,
            fun _ hc => List.mem_takeWhile_imp hc⟩, (readSign s).2.dropWhile isdigit)
        else (none, c :: s)
      else (none, c :: s)

theorem readFraction_digits {s : List UInt8} {c : UInt8}
    (h : c ∈ (readFraction point radix s).1.getD []) : radix.isDigit c = true := by
  cases s with
  | nil => simp [readFraction] at h
  | cons d s =>
      simp only [readFraction] at h
      split at h
      · exact List.mem_takeWhile_imp h
      · simp at h

def readBody (s : List UInt8) : Option (Numeral × List UInt8) :=
  let fraction := readFraction point radix (s.dropWhile radix.isDigit)
  let exponent := readExponent radix fraction.2
  if h : s.takeWhile radix.isDigit ++ fraction.1.getD [] ≠ [] then
    some (⟨radix, s.takeWhile radix.isDigit, fraction.1, exponent.1, h, fun _ hc =>
      (List.mem_append.mp hc).elim List.mem_takeWhile_imp (readFraction_digits point radix)⟩,
      exponent.2)
  else none

/-- A hexadecimal lead without digits behind it is the decimal numeral `0`. -/
def readNumeral (s : List UInt8) : Option (Numeral × List UInt8) :=
  match s with
  | 48 :: x :: t =>
      if x = 120 ∨ x = 88 then
        (readBody point (.hexadecimal (x = 88)) t).or (readBody point .decimal s)
      else readBody point .decimal s
  | s => readBody point .decimal s

end Reading

/-! ## What is read is the text -/

theorem text_of_readSign (s : List UInt8) : signText (readSign s).1 ++ (readSign s).2 = s := by
  cases s with
  | nil => rfl
  | cons c s =>
      simp only [readSign]
      split_ifs with hplus hminus
      · simp [signText, Sign.byte, hplus]
      · simp [signText, Sign.byte, hminus]
      · simp [signText]

theorem readSign_suffix (s : List UInt8) : (readSign s).2 <:+ s :=
  ⟨signText (readSign s).1, text_of_readSign s⟩

section TextOfRead

variable (point : UInt8) (radix : Radix) (s : List UInt8)

theorem text_of_readFraction : fractionText point (readFraction point radix s).1 ++
    (readFraction point radix s).2 = s := by
  cases s with
  | nil => rfl
  | cons c s =>
      simp only [readFraction]
      split_ifs with hpoint
      · simp [fractionText, hpoint]
      · simp [fractionText]

theorem text_of_readExponent :
    exponentText radix (readExponent radix s).1 ++ (readExponent radix s).2 = s := by
  cases s with
  | nil => rfl
  | cons c s =>
      simp only [readExponent]
      split_ifs with hmark hdigits
      · have hbyte : radix.exponentMark (decide (c = radix.exponentMark true)) = c := by
          by_cases hupper : c = radix.exponentMark true
          · simp [hupper]
          · rw [decide_eq_false hupper]
            exact (hmark.resolve_right hupper).symm
        simp [exponentText, Exponent.text, hbyte, text_of_readSign]
      · simp [exponentText]
      · simp [exponentText]

variable {point radix s} {n : Numeral} {rest : List UInt8}

theorem text_of_readBody (h : readBody point radix s = some (n, rest)) :
    n.radix = radix ∧ n.body point ++ rest = s := by
  simp only [readBody] at h
  split_ifs at h with hdigits
  obtain ⟨rfl, rfl⟩ := Prod.mk.inj (Option.some.inj h)
  simp [Numeral.body, text_of_readExponent, text_of_readFraction]

theorem text_of_readDecimal (h : readBody point .decimal s = some (n, rest)) :
    n.text point ++ rest = s := by
  obtain ⟨hradix, hbody⟩ := text_of_readBody h
  simp [Numeral.text, Radix.lead, hradix, hbody]

theorem text_of_readNumeral (h : readNumeral point s = some (n, rest)) :
    n.text point ++ rest = s := by
  unfold readNumeral at h
  split at h
  · rename_i x t
    split_ifs at h with hmark
    · rcases Option.or_eq_some_iff.mp h with hhex | ⟨-, hdecimal⟩
      · obtain ⟨hradix, hbody⟩ := text_of_readBody hhex
        rcases hmark with rfl | rfl <;> simp [Numeral.text, Radix.lead, hradix, hbody]
      · exact text_of_readDecimal hdecimal
    · exact text_of_readDecimal h
  · exact text_of_readDecimal h

end TextOfRead

/-! ## A numeral is read as a whole -/

theorem mem_signText {sign : Option Sign} {c : UInt8} (h : c ∈ signText sign) :
    c = 43 ∨ c = 45 := by
  cases sign with
  | none => simp [signText] at h
  | some sign => cases sign <;> simp_all [signText, Sign.byte]

theorem mem_body {point : UInt8} {n : Numeral} {c : UInt8} :
    c ∈ n.body point ↔ c ∈ n.whole ++ n.fraction.getD [] ∨ (n.fraction.isSome ∧ c = point) ∨
      ∃ e, n.exponent = some e ∧
        (c = n.radix.exponentMark e.upper ∨ c ∈ signText e.sign ∨ c ∈ e.digits) := by
  cases hf : n.fraction <;> cases he : n.exponent <;>
    simp [Numeral.body, fractionText, exponentText, Exponent.text, hf, he] <;>
    tauto

theorem span_append {p : UInt8 → Bool} {l r : List UInt8} (hl : ∀ c ∈ l, p c = true)
    (hr : ∀ c ∈ r.head?, p c = false) :
    (l ++ r).takeWhile p = l ∧ (l ++ r).dropWhile p = r := by
  rw [List.takeWhile_append_of_pos hl, List.dropWhile_append_of_pos hl]
  cases r with
  | nil => simp
  | cons c r => simp [hr c rfl]

structure IsPoint (point : UInt8) : Prop where
  alnum : isalnum point = false
  sign : point ≠ 43 ∧ point ≠ 45

theorem isPoint_dot : IsPoint '.'.toUInt8 where
  alnum := by decide
  sign := by decide

theorem readSign_text (sign : Option Sign) {s : List UInt8}
    (h : sign = none → ∀ c ∈ s.head?, c ≠ 43 ∧ c ≠ 45) :
    readSign (signText sign ++ s) = (sign, s) := by
  cases sign with
  | none =>
      cases s with
      | nil => rfl
      | cons c s => simp [signText, readSign, h rfl c rfl]
  | some sign => cases sign <;> rfl

namespace Radix

theorem isalnum_of_isDigit {radix : Radix} {c : UInt8} (h : radix.isDigit c = true) :
    isalnum c = true := by
  cases radix with
  | decimal => exact isalnum_of_isxdigit c (isxdigit_of_isdigit c h)
  | hexadecimal upper => exact isalnum_of_isxdigit c h

theorem isDigit_exponentMark (radix : Radix) (upper : Bool) :
    radix.isDigit (radix.exponentMark upper) = false := by
  cases radix <;> cases upper <;> rfl

theorem isalnum_exponentMark (radix : Radix) (upper : Bool) :
    isalnum (radix.exponentMark upper) = true := by
  cases radix <;> cases upper <;> rfl

theorem exponentMark_eq_upper (radix : Radix) (upper : Bool) :
    radix.exponentMark upper = radix.exponentMark true ↔ upper = true := by
  cases radix <;> cases upper <;> simp [exponentMark]

theorem isDigit_point {radix : Radix} {point : UInt8} (hpoint : IsPoint point) :
    radix.isDigit point = false := by
  by_contra h
  have := isalnum_of_isDigit (Bool.not_eq_false _ ▸ h)
  simp [hpoint.alnum] at this

end Radix

section ReadText

variable {point : UInt8} (hpoint : IsPoint point) (radix : Radix)

theorem readExponent_text (e : Option Exponent) :
    readExponent radix (exponentText radix e) = (e, []) := by
  cases e with
  | none => rfl
  | some e =>
      have hsign : readSign (signText e.sign ++ e.digits) = (e.sign, e.digits) := by
        refine readSign_text e.sign fun _ c hc => ?_
        have hdigit := e.decimal c (List.mem_of_mem_head? hc)
        constructor <;> rintro rfl <;> exact absurd hdigit (by decide)
      have hspan := span_append (r := []) e.decimal (by simp)
      have hmark : ¬ radix.exponentMark e.upper = radix.exponentMark false → e.upper = true := by
        cases e.upper <;> simp
      rw [List.append_nil] at hspan
      simp [exponentText, Exponent.text, readExponent, hsign, hspan, e.nonempty,
        Radix.exponentMark_eq_upper]
      exact hmark

variable {radix}

theorem head_exponentText {e : Option Exponent} {c : UInt8}
    (h : c ∈ (exponentText radix e).head?) : radix.isDigit c = false ∧ isalnum c = true := by
  cases e with
  | none => simp [exponentText] at h
  | some e =>
      simp only [exponentText, Option.map_some, Option.getD_some, Exponent.text, List.head?_cons,
        Option.mem_some_iff] at h
      exact h ▸ ⟨radix.isDigit_exponentMark e.upper, radix.isalnum_exponentMark e.upper⟩

include hpoint in
theorem ne_point_of_isalnum {c : UInt8} (h : isalnum c = true) : c ≠ point := by
  rintro rfl
  simp [hpoint.alnum] at h

include hpoint in
theorem readFraction_text {f : Option (List UInt8)} {rest : List UInt8}
    (hf : ∀ c ∈ f.getD [], radix.isDigit c = true)
    (hrest : ∀ c ∈ rest.head?, radix.isDigit c = false ∧ isalnum c = true) :
    readFraction point radix (fractionText point f ++ rest) = (f, rest) := by
  cases f with
  | none =>
      cases rest with
      | nil => rfl
      | cons c rest => simp [fractionText, readFraction, ne_point_of_isalnum hpoint (hrest c rfl).2]
  | some f =>
      rw [Option.getD_some] at hf
      have hspan := span_append hf fun c hc => (hrest c hc).1
      simp [fractionText, readFraction, hspan]

include hpoint in
theorem head_behind_whole {n : Numeral} {c : UInt8}
    (h : c ∈ (fractionText point n.fraction ++ exponentText n.radix n.exponent).head?) :
    n.radix.isDigit c = false := by
  cases hf : n.fraction with
  | none =>
      rw [hf] at h
      exact (head_exponentText h).1
  | some f =>
      simp only [hf, fractionText, List.cons_append, List.head?_cons, Option.mem_some_iff] at h
      exact h ▸ Radix.isDigit_point hpoint

include hpoint in
theorem readBody_text (n : Numeral) : readBody point n.radix (n.body point) = some (n, []) := by
  have hwhole := span_append (fun c hc => n.digits c (List.mem_append_left _ hc))
    fun c => head_behind_whole hpoint (n := n)
  have hfraction := readFraction_text hpoint (fun c hc => n.digits c (List.mem_append_right _ hc))
    fun c => head_exponentText (e := n.exponent)
  simp [readBody, Numeral.body, hwhole, hfraction, readExponent_text, n.nonempty]

theorem body_ne_nil (point : UInt8) (n : Numeral) : n.body point ≠ [] := by
  intro h
  apply n.nonempty
  simp only [Numeral.body, List.append_eq_nil_iff] at h
  cases hf : n.fraction with
  | none => simp [h.1]
  | some f => simp [hf, fractionText] at h

include hpoint in
theorem not_hexadecimal_mark {n : Numeral} (hradix : n.radix = .decimal) {x : UInt8}
    (h : x ∈ n.body point) : ¬ (x = 120 ∨ x = 88) := by
  have hdigit (c : UInt8) (hc : isdigit c = true) : ¬ (c = 120 ∨ c = 88) := by
    rintro (rfl | rfl) <;> exact absurd hc (by decide)
  rw [mem_body] at h
  rcases h with h | ⟨-, rfl⟩ | ⟨e, -, h⟩
  · have := n.digits x h
    rw [hradix] at this
    exact hdigit x this
  · rintro (rfl | rfl) <;> exact absurd hpoint.alnum (by decide)
  · rw [hradix] at h
    rcases h with rfl | h | h
    · cases e.upper <;> decide
    · rcases mem_signText h with rfl | rfl <;> decide
    · exact hdigit x (e.decimal x h)

include hpoint in
theorem readNumeral_text (n : Numeral) : readNumeral point (n.text point) = some (n, []) := by
  have hbody := readBody_text hpoint n
  cases hradix : n.radix with
  | hexadecimal upper =>
      rw [hradix] at hbody
      cases upper <;> simp [Numeral.text, hradix, Radix.lead, readNumeral, hbody]
  | decimal =>
      rw [hradix] at hbody
      simp only [Numeral.text, hradix, Radix.lead, List.nil_append]
      unfold readNumeral
      split
      · rename_i x t heq
        have hx : ¬ (x = 120 ∨ x = 88) := not_hexadecimal_mark hpoint hradix (by simp [heq])
        rwa [if_neg hx]
      · exact hbody

end ReadText

/-! ## The value -/

def digitValue (c : UInt8) : Nat :=
  if isdigit c then c.toNat - 48 else (tolower c).toNat - 97 + 10

def ofDigits (base : Nat) (digits : List UInt8) : Nat :=
  digits.foldl (fun m c => m * base + digitValue c) 0

def hexDigits (digits : List UInt8) : UInt64 :=
  digits.foldl (fun u c => (u <<< 4) + UInt64.ofNat (digitValue c)) 0

theorem shift_digit (m d : Nat) :
    (UInt64.ofNat m <<< 4) + UInt64.ofNat d = UInt64.ofNat (m * 16 + d) := by
  apply UInt64.toNat_inj.mp
  simp [Nat.shiftLeft_eq]

theorem hexDigits_eq (digits : List UInt8) :
    hexDigits digits = UInt64.ofNat (ofDigits 16 digits) := by
  have hfold (m : Nat) :
      digits.foldl (fun (u : UInt64) c => (u <<< 4) + UInt64.ofNat (digitValue c))
          (UInt64.ofNat m) =
        UInt64.ofNat (digits.foldl (fun m c => m * 16 + digitValue c) m) := by
    induction digits generalizing m with
    | nil => rfl
    | cons c digits ih => rw [List.foldl_cons, List.foldl_cons, shift_digit, ih]
  exact hfold 0

def Exponent.value (e : Exponent) : Int :=
  match e.sign with
  | some .minus => -ofDigits 10 e.digits
  | _ => ofDigits 10 e.digits

namespace Numeral

variable (n : Numeral)

def significand : Nat := ofDigits n.radix.base (n.whole ++ n.fraction.getD [])

def scale : Int :=
  (n.exponent.map Exponent.value).getD 0 - ((n.fraction.getD []).length * n.radix.digitScale : Nat)

def numerator : Nat := n.significand * n.radix.exponentBase ^ n.scale.toNat

def denominator : Nat := n.radix.exponentBase ^ (-n.scale).toNat

def IsInteger : Prop := n.fraction = none ∧ n.exponent = none

instance : Decidable n.IsInteger := inferInstanceAs (Decidable (_ ∧ _))

theorem exponentBase_pos (radix : Radix) : 0 < radix.exponentBase := by
  cases radix <;> simp [Radix.exponentBase]

theorem denominator_pos : 0 < n.denominator := Nat.pow_pos (exponentBase_pos n.radix)

variable {n}

theorem IsInteger.numerator (h : n.IsInteger) : n.numerator = ofDigits n.radix.base n.whole := by
  simp [Numeral.numerator, significand, scale, h.1, h.2]

theorem IsInteger.denominator (h : n.IsInteger) : n.denominator = 1 := by
  simp [Numeral.denominator, scale, h.1, h.2]

end Numeral

end Numerals
