import Luatier.Frontend.NumeralTokens

/-!
# Numerals and what follows them

A numeral ends where letters, digits, underscores and points end.  The scanner of
the lexer stops earlier at a character that cannot continue the numeral, and that
character begins the next token.
-/

namespace Luatier

open CLocale CStdlib Numerals Binary64 NumberStrings

namespace Lexer

variable {lx start behind : Lexer} {t : Token}

def isRunChar (c : UInt8) : Bool := isalnum c || c == '_'.toUInt8 || c == '.'.toUInt8

def isSign (c : UInt8) : Bool := c == '+'.toUInt8 || c == '-'.toUInt8

/-- The longest run of such characters, with signs right behind exponent marks. -/
def wholeRun (isHex afterMark : Bool) : List UInt8 → List UInt8
  | [] => []
  | c :: s =>
      if isRunChar c || (afterMark && isSign c) then c :: wholeRun isHex (isMark isHex c) s
      else []

def numeralRun (lx : Lexer) : List UInt8 := wholeRun lx.isHexLead false lx.rest

/-- A digit, or a point and a digit. -/
def StartsNumeral (lx : Lexer) : Prop :=
  isdigit (lx.peekChar 0) = true ∨
    (lx.peekChar 0 = '.'.toUInt8 ∧ isdigit (lx.peekChar 1) = true)

instance (lx : Lexer) : Decidable lx.StartsNumeral := inferInstanceAs (Decidable (_ ∨ _))

def IsNumeral (s : List UInt8) : Prop := ∃ n : Numeral, s = n.text '.'.toUInt8

/-- One token for all of the run where it is a numeral, an error where it is not. -/
def ReadsWhole (start : Lexer) (result : Except LexError (Token × Lexer)) : Prop :=
  (IsNumeral start.numeralRun → ∃ t behind, result = .ok (t, behind) ∧ t.IsNumber ∧
    t.text = start.numeralRun ∧ start.numeralRun ++ behind.rest = start.rest) ∧
  (¬ IsNumeral start.numeralRun → ∃ text, result = .error (.near "malformed number" text))

/--
The numeral goes on: digits behind an exponent, and digits, points and an
exponent mark where there is none; `x` behind a zero makes it hexadecimal.
-/
def Continues (n : Numeral) (c : UInt8) : Prop :=
  match n.exponent with
  | some _ => isdigit c = true
  | none =>
      n.radix.isDigit c = true ∨ c = '.'.toUInt8 ∨
        (∃ upper, c = n.radix.exponentMark upper) ∨
        (n.text '.'.toUInt8 = ['0'.toUInt8] ∧ (c = 'x'.toUInt8 ∨ c = 'X'.toUInt8))

/-- A numeral, and a character behind it that does not continue it. -/
def Splits (w : List UInt8) : Prop :=
  ∃ n c rest, w = Numeral.text '.'.toUInt8 n ++ c :: rest ∧ ¬ Continues n c

/-! ## The scan on a list -/

def scanExponent (radix : Radix) : List UInt8 → List UInt8
  | [] => []
  | c :: s =>
      if c = radix.exponentMark false ∨ c = radix.exponentMark true then
        c :: (signText (readSign s).1 ++ (readSign s).2.takeWhile isdigit)
      else []

def mantissa (radix : Radix) (c : UInt8) : Bool := radix.isDigit c || c == '.'.toUInt8

def scanBody (radix : Radix) (s : List UInt8) : List UInt8 :=
  s.takeWhile (mantissa radix) ++ scanExponent radix (s.dropWhile (mantissa radix))

def isHexRadix : Radix → Bool
  | .decimal => false
  | .hexadecimal _ => true

theorem isMantissa_eq (radix : Radix) : isMantissa (isHexRadix radix) = mantissa radix := by
  cases radix <;> rfl

theorem isMark_iff (radix : Radix) (c : UInt8) : isMark (isHexRadix radix) c = true ↔
    c = radix.exponentMark false ∨ c = radix.exponentMark true := by
  have hbytes : 'e'.toUInt8 = 101 ∧ 'E'.toUInt8 = 69 ∧ 'p'.toUInt8 = 112 ∧ 'P'.toUInt8 = 80 := by
    decide
  cases radix <;> simp [isMark, isHexRadix, Radix.exponentMark, hbytes]

theorem exponentSign_eq (lx : Lexer) :
    lx.exponentSign.1 = signText (readSign lx.rest).1 ∧
      lx.exponentSign.2.rest = (readSign lx.rest).2 := by
  have hbytes : '+'.toUInt8 = 43 ∧ '-'.toUInt8 = 45 := by decide
  cases hrest : lx.rest with
  | nil => simp [exponentSign, peekChar, hrest, readSign, signText, hbytes]
  | cons c s =>
      simp only [exponentSign, peekChar, hrest, List.getD_cons_zero, readSign, hbytes]
      by_cases hplus : c = 43
      · simp [hplus, get, hrest, signText, Sign.byte]
      · by_cases hminus : c = 45
        · simp [hminus, get, hrest, signText, Sign.byte]
        · simp [hplus, hminus, hrest, signText]

theorem numeralExponent_eq (lx : Lexer) (radix : Radix) :
    (lx.numeralExponent (isHexRadix radix)).1 = scanExponent radix lx.rest := by
  cases hrest : lx.rest with
  | nil =>
      have hzero : ¬ isMark (isHexRadix radix) 0 = true := by
        cases radix with
        | decimal => decide
        | hexadecimal upper => exact show ¬ isMark true 0 = true by decide
      simp [numeralExponent, peekChar, hrest, hzero, scanExponent]
  | cons c s =>
      have hget : lx.get.rest = s := by simp [get, hrest]
      obtain ⟨hsign, hbehind⟩ := exponentSign_eq lx.get
      rw [hget] at hsign hbehind
      simp only [numeralExponent, peekChar, hrest, List.getD_cons_zero, isMark_iff, scanExponent,
        run, hsign, hbehind]
      split <;> rfl

theorem numeralText_eq (lx : Lexer) : ∃ radix s, lx.rest = Radix.lead radix ++ s ∧
    lx.isHexLead = isHexRadix radix ∧ lx.numeralText.1 = radix.lead ++ scanBody radix s := by
  have hbytes : '0'.toUInt8 = 48 ∧ 'x'.toUInt8 = 120 ∧ 'X'.toUInt8 = 88 := by decide
  have hlead := lx.numeralLead_rest
  have hbody (radix : Radix) (hhex : lx.isHexLead = isHexRadix radix) :
      lx.numeralText.1 = lx.numeralLead.1 ++ scanBody radix lx.numeralLead.2.rest := by
    simp only [numeralText, hhex, numeralExponent_eq, isMantissa_eq, run, skip, scanBody]
  cases hhex : lx.isHexLead with
  | false =>
      have hnone : lx.numeralLead = ([], lx) := by simp [numeralLead, hhex]
      exact ⟨.decimal, lx.rest, rfl, rfl, by simpa [hnone, Radix.lead] using hbody .decimal hhex⟩
  | true =>
      have hsome : lx.numeralLead.1 = [lx.peekChar 0, lx.peekChar 1] := by
        simp [numeralLead, hhex]
      have hchars := hhex
      simp only [isHexLead, Bool.and_eq_true, Bool.or_eq_true, beq_iff_eq, hbytes] at hchars
      obtain ⟨hzero, hx⟩ := hchars
      rcases hx with hx | hx
      · have hradix : lx.numeralLead.1 = Radix.lead (.hexadecimal false) := by
          simp [hsome, hzero, hx, Radix.lead]
        exact ⟨.hexadecimal false, lx.numeralLead.2.rest, by rw [← hlead, hradix], rfl,
          by rw [hbody (.hexadecimal false) hhex, hradix]⟩
      · have hradix : lx.numeralLead.1 = Radix.lead (.hexadecimal true) := by
          simp [hsome, hzero, hx, Radix.lead]
        exact ⟨.hexadecimal true, lx.numeralLead.2.rest, by rw [← hlead, hradix], rfl,
          by rw [hbody (.hexadecimal true) hhex, hradix]⟩

/-! ## Where the scan of a numeral ends -/

section ScanEnd

variable {n : Numeral} {r : List UInt8}

def digitsText (n : Numeral) : List UInt8 := n.whole ++ fractionText '.'.toUInt8 n.fraction

theorem body_eq (n : Numeral) :
    n.body '.'.toUInt8 = digitsText n ++ exponentText n.radix n.exponent := by
  simp [Numeral.body, digitsText]

theorem mantissa_digitsText (n : Numeral) : ∀ c ∈ digitsText n, mantissa n.radix c = true := by
  intro c hc
  have hdigits := n.digits
  simp only [digitsText, List.mem_append] at hc
  rcases hc with hc | hc
  · simp [mantissa, hdigits c (List.mem_append_left _ hc)]
  · cases hf : n.fraction with
    | none => simp [hf, fractionText] at hc
    | some f =>
        simp only [hf, fractionText, List.mem_cons] at hc
        rcases hc with rfl | hc
        · simp [mantissa]
        · simp [mantissa, hdigits c (List.mem_append_right _ (by simpa [hf] using hc))]

theorem mantissa_mark (radix : Radix) (upper : Bool) :
    mantissa radix (radix.exponentMark upper) = false := by
  cases radix <;> cases upper <;> rfl

theorem append_eq_self_iff {l r : List UInt8} : l ++ r = l ↔ r = [] := by
  simp

theorem takeWhile_eq_nil_iff {p : UInt8 → Bool} :
    r.takeWhile p = [] ↔ ∀ c ∈ r.head?, p c = false := by
  cases r with
  | nil => simp
  | cons c r => cases hc : p c <;> simp [hc]

theorem scanExponent_text (e : Exponent) (radix : Radix) (r : List UInt8) :
    scanExponent radix (e.text radix ++ r) = e.text radix ++ r.takeWhile isdigit := by
  have hsign : readSign (signText e.sign ++ (e.digits ++ r)) = (e.sign, e.digits ++ r) := by
    refine readSign_text e.sign fun _ c hc => ?_
    have hmem : c ∈ e.digits := by
      cases hdigits : e.digits with
      | nil => exact absurd hdigits e.nonempty
      | cons d digits =>
          rw [hdigits] at hc
          simp at hc
          simp [hc]
    have hdigit := e.decimal c hmem
    constructor <;> rintro rfl <;> exact absurd hdigit (by decide)
  have hmark : radix.exponentMark e.upper = radix.exponentMark false ∨
      radix.exponentMark e.upper = radix.exponentMark true := by
    cases e.upper <;> simp
  simp only [Exponent.text, List.cons_append, List.append_assoc, scanExponent, hsign]
  rw [if_pos hmark, List.takeWhile_append_of_pos e.decimal]

theorem scanExponent_eq_nil (radix : Radix) : scanExponent radix r = [] ↔
    ∀ c ∈ r.head?, ¬ ∃ upper, c = radix.exponentMark upper := by
  cases r with
  | nil => simp [scanExponent]
  | cons c r =>
      simp only [scanExponent, List.head?_cons, Option.mem_some_iff, forall_eq',
        Bool.exists_bool]
      by_cases hmark : c = radix.exponentMark false ∨ c = radix.exponentMark true <;>
        simp [hmark]

theorem scanBody_eq_iff (n : Numeral) (r : List UInt8) :
    scanBody n.radix (n.body '.'.toUInt8 ++ r) = n.body '.'.toUInt8 ↔
      ∀ c ∈ r.head?, ¬ match n.exponent with
        | some _ => isdigit c = true
        | none => mantissa n.radix c = true ∨ ∃ upper, c = n.radix.exponentMark upper := by
  have hdigits := mantissa_digitsText n
  rw [body_eq, scanBody, List.append_assoc, List.takeWhile_append_of_pos hdigits,
    List.dropWhile_append_of_pos hdigits, List.append_assoc, List.append_cancel_left_eq]
  cases he : n.exponent with
  | none =>
      simp only [exponentText, Option.map_none, Option.getD_none, List.nil_append,
        List.append_eq_nil_iff]
      cases r with
      | nil => simp [scanExponent]
      | cons c r =>
          cases hc : mantissa n.radix c with
          | true => simp [hc]
          | false => simp [hc, scanExponent_eq_nil]
  | some e =>
      have hmark : ((e.text n.radix ++ r).takeWhile (mantissa n.radix) = []) ∧
          (e.text n.radix ++ r).dropWhile (mantissa n.radix) = e.text n.radix ++ r := by
        simp [Exponent.text, mantissa_mark]
      simp only [exponentText, Option.map_some, Option.getD_some, hmark, scanExponent_text,
        List.nil_append, append_eq_self_iff, takeWhile_eq_nil_iff]
      simp

theorem lead_hexadecimal (upper : Bool) : ∃ x, Radix.lead (.hexadecimal upper) = [48, x] ∧
    (x = 120 ∨ x = 88) := by
  cases upper
  · exact ⟨120, rfl, .inl rfl⟩
  · exact ⟨88, rfl, .inr rfl⟩

/-- A decimal numeral in front of an `x` is a zero that the scan takes for a lead. -/
theorem eq_zero_of_lead (hradix : n.radix = .decimal) {x : UInt8} (hx : x = 120 ∨ x = 88)
    {s : List UInt8} (h : n.text '.'.toUInt8 ++ r = 48 :: x :: s) :
    n.text '.'.toUInt8 = [48] ∧ r = x :: s := by
  have hbody : n.text '.'.toUInt8 = n.body '.'.toUInt8 := by
    simp [Numeral.text, hradix, Radix.lead]
  rcases htext : n.text '.'.toUInt8 with _ | ⟨c, _ | ⟨d, text⟩⟩
  · exact absurd (hbody ▸ htext) (body_ne_nil _ n)
  · rw [htext, List.cons_append, List.nil_append] at h
    obtain ⟨rfl, rfl⟩ := List.cons.inj h
    exact ⟨rfl, rfl⟩
  · rw [htext, List.cons_append, List.cons_append] at h
    obtain ⟨rfl, rfl, rfl⟩ : c = 48 ∧ d = x ∧ text ++ r = s := by simpa using h
    exact absurd hx (not_hexadecimal_mark isPoint_dot hradix
      (by rw [← hbody, htext]; simp))

theorem isHexLead_cons {x : UInt8} {s : List UInt8} (hx : x = 120 ∨ x = 88)
    (h : lx.rest = 48 :: x :: s) : lx.isHexLead = true := by
  have hbytes : '0'.toUInt8 = 48 ∧ 'x'.toUInt8 = 120 ∧ 'X'.toUInt8 = 88 := by decide
  simp [isHexLead, peekChar, h, hbytes, hx]

theorem continues_iff {c : UInt8}
    (hlead : ¬ (n.text '.'.toUInt8 = ['0'.toUInt8] ∧ (c = 'x'.toUInt8 ∨ c = 'X'.toUInt8))) :
    Continues n c ↔ match n.exponent with
      | some _ => isdigit c = true
      | none => mantissa n.radix c = true ∨ ∃ upper, c = n.radix.exponentMark upper := by
  unfold Continues
  cases n.exponent with
  | some e => rfl
  | none => simp [mantissa, hlead, or_assoc]

/-- The scan takes just the numeral, if and only if the next character ends it. -/
theorem numeralText_eq_iff (h : lx.rest = n.text '.'.toUInt8 ++ r) :
    lx.numeralText.1 = n.text '.'.toUInt8 ↔ ∀ c ∈ r.head?, ¬ Continues n c := by
  have hbytes : '0'.toUInt8 = 48 ∧ 'x'.toUInt8 = 120 ∧ 'X'.toUInt8 = 88 := by decide
  obtain ⟨radix, s, hrest, hhex, htext⟩ := numeralText_eq lx
  have hsame (hradix : radix = n.radix) :
      lx.numeralText.1 = n.text '.'.toUInt8 ↔ ∀ c ∈ r.head?, ¬ Continues n c := by
    subst hradix
    obtain rfl : s = n.body '.'.toUInt8 ++ r := by
      rw [h, Numeral.text, List.append_assoc] at hrest
      exact (List.append_cancel_left hrest).symm
    rw [htext, Numeral.text, List.append_cancel_left_eq, scanBody_eq_iff]
    refine forall₂_congr fun c hc => not_congr (continues_iff ?_).symm
    rintro ⟨hzero, hx⟩
    obtain ⟨r, rfl⟩ : ∃ r', r = c :: r' := by
      cases r with
      | nil => simp at hc
      | cons d r => exact ⟨r, by simpa using hc⟩
    rw [hbytes.2.1, hbytes.2.2] at hx
    have hlead := isHexLead_cons hx (by rw [h, hzero, hbytes.1]; rfl)
    rw [hhex] at hlead
    cases hradix : n.radix with
    | decimal => simp [hradix, isHexRadix] at hlead
    | hexadecimal upper =>
        have hlength := congrArg List.length hzero
        have hbody := List.length_pos_iff.mpr (body_ne_nil '.'.toUInt8 n)
        simp [Numeral.text, hradix, Radix.lead] at hlength
  cases hradix : n.radix with
  | hexadecimal upper =>
      obtain ⟨x, hx, hmark⟩ := lead_hexadecimal upper
      have hcons : lx.rest = 48 :: x :: (n.body '.'.toUInt8 ++ r) := by
        rw [h, Numeral.text, hradix, hx]
        rfl
      have hlead := isHexLead_cons hmark hcons
      rw [hhex] at hlead
      cases radix with
      | decimal => simp [isHexRadix] at hlead
      | hexadecimal upper' =>
          apply hsame
          rw [hradix]
          obtain ⟨x', hx', -⟩ := lead_hexadecimal upper'
          rw [hcons, hx'] at hrest
          have hxx : x = x' := by simpa using (List.cons.inj (List.cons.inj hrest).2).1
          have hinj : ∀ u u', Radix.lead (.hexadecimal u) = Radix.lead (.hexadecimal u') →
              u = u' := by decide
          rw [hinj upper' upper (by rw [hx, hx', hxx])]
  | decimal =>
      cases radix with
      | decimal => exact hsame hradix.symm
      | hexadecimal upper =>
          -- The scan takes the zero for a lead, and the numeral goes on with an `x`.
          obtain ⟨x, hx, hmark⟩ := lead_hexadecimal upper
          rw [hx] at hrest htext
          obtain ⟨hzero, rfl⟩ := eq_zero_of_lead hradix hmark (h.symm.trans hrest)
          have hcontinues : Continues n x := by
            have hexponent : n.exponent = none := by
              cases he : n.exponent with
              | none => rfl
              | some e =>
                  have hlength := congrArg List.length hzero
                  have hdigits := List.length_pos_iff.mpr e.nonempty
                  simp [Numeral.text, Numeral.body, hradix, Radix.lead, he, exponentText,
                    Exponent.text] at hlength
                  omega
            unfold Continues
            rw [hexponent, hzero, hbytes.1, hbytes.2.1, hbytes.2.2]
            exact .inr (.inr (.inr ⟨rfl, hmark⟩))
          constructor
          · intro heq
            rw [htext, hzero] at heq
            simp at heq
          · exact fun hends => absurd hcontinues (hends x rfl)

end ScanEnd

/-! ## What the lexer makes of the scanned text -/

theorem lexNumber_of_numeral {n : Numeral} (h : lx.numeralText.1 = n.text '.'.toUInt8) :
    ∃ t, lx.lexNumber = .ok (t, lx.numeralText.2) ∧ t.IsNumber ∧
      t.text = n.text '.'.toUInt8 := by
  have hread := strtod_number none n
  simp only [signText, Option.map_none, Option.toList_none, List.nil_append] at hread
  obtain ⟨c, s, hcons, -⟩ := head_text n
  have hlength : (n.text '.'.toUInt8).length ≠ 0 := by simp [hcons]
  have hinteger {t t' : Token} (htoken : integerToken t = some t') :
      t'.IsNumber ∧ t'.text = t.text := by
    simp only [integerToken] at htoken
    repeat' split at htoken
    all_goals
      first
        | (obtain rfl := Option.some.inj htoken; exact ⟨by simp [Token.IsNumber], rfl⟩)
        | simp at htoken
  simp only [lexNumber, h]
  split
  · rename_i t' htoken
    split_ifs at htoken
    obtain ⟨hnumber, htext⟩ := hinteger htoken
    exact ⟨t', rfl, hnumber, htext⟩
  · have hend : ¬ ((strtod '.'.toUInt8 (n.text '.'.toUInt8)).2 = 0 ∨
        (n.text '.'.toUInt8).getD (strtod '.'.toUInt8 (n.text '.'.toUInt8)).2 0 ≠ 0) := by
      simp [hread, hlength]
    rw [if_neg hend]
    exact ⟨_, rfl, .inl rfl, rfl⟩

theorem lexNumber_malformed (h : ¬ IsNumeral lx.numeralText.1) :
    lx.lexNumber = .error (.near "malformed number" lx.numeralText.1) := by
  have hdone {t behind} (hok : lx.lexNumber = .ok (t, behind)) : IsNumeral lx.numeralText.1 := by
    obtain ⟨hrest, hconverted⟩ := lexNumber_converted hok
    have hbehind : behind = lx.numeralText.2 := by
      simp only [lexNumber] at hok
      repeat' split at hok
      all_goals
        first
          | exact (Prod.mk.inj (Except.ok.inj hok)).2.symm
          | simp at hok
    have htext : t.text = lx.numeralText.1 := by
      rw [hbehind, ← lx.numeralText_rest] at hrest
      exact List.append_cancel_right hrest
    have hchars : ∀ c ∈ t.text, IsNumeralChar c := fun c hc => numeralText_chars (htext ▸ hc)
    have hhead : ∀ c ∈ t.text.head?, IsNumeralHead c := fun c hc => numeralText_head (htext ▸ hc)
    rw [← htext]
    rcases text_of_stringToNumber hconverted with ⟨sign, n, hn⟩ | hspelled
    · rw [trim_text hchars] at hn
      have hsign := readSign_number sign n
      rw [← hn, readSign_text_none hhead] at hsign
      exact ⟨n, (Prod.mk.inj hsign).2⟩
    · rw [trim_text hchars, readSign_text_none hhead] at hspelled
      obtain ⟨c, s, hcons, hlower⟩ := head_spelled hspelled
      have hcons : t.text = c :: s := hcons
      rcases hhead c (by simp [hcons]) with hc | rfl | rfl | rfl
      · rw [tolower_of_isdigit c hc] at hlower
        rcases hlower with rfl | rfl <;> exact absurd hc (by decide)
      all_goals exact absurd hlower (by decide)
  cases hlex : lx.lexNumber with
  | ok p => exact absurd (hdone (t := p.1) hlex) h
  | error e =>
      simp only [lexNumber] at hlex
      repeat' split at hlex
      all_goals
        first
          | exact congrArg Except.error (Except.error.inj hlex).symm
          | simp at hlex

/-! ## The run and the numerals in it -/

theorem wholeRun_prefix (isHex afterMark : Bool) (s : List UInt8) :
    ∃ beyond, s = wholeRun isHex afterMark s ++ beyond ∧
      ∀ c ∈ beyond.head?, isRunChar c = false := by
  induction s generalizing afterMark with
  | nil => exact ⟨[], rfl, by simp⟩
  | cons c s ih =>
      simp only [wholeRun]
      split
      · obtain ⟨beyond, hs, hhead⟩ := ih (isMark isHex c)
        exact ⟨beyond, by rw [List.cons_append, ← hs], hhead⟩
      · rename_i hstop
        refine ⟨c :: s, rfl, ?_⟩
        intro d hd
        obtain rfl : c = d := by simpa using hd
        by_contra hrun
        exact hstop (by simp [Bool.eq_true_of_not_eq_false hrun])

theorem wholeRun_append (isHex : Bool) {l : List UInt8} (hl : ∀ c ∈ l, isRunChar c = true)
    (afterMark : Bool) (r : List UInt8) :
    ∃ afterMark', wholeRun isHex afterMark (l ++ r) = l ++ wholeRun isHex afterMark' r := by
  induction l generalizing afterMark with
  | nil => exact ⟨afterMark, rfl⟩
  | cons c l ih =>
      obtain ⟨afterMark', htail⟩ :=
        ih (fun d hd => hl d (List.mem_cons_of_mem c hd)) (isMark isHex c)
      refine ⟨afterMark', ?_⟩
      rw [List.cons_append, wholeRun, hl c List.mem_cons_self, Bool.true_or, if_pos rfl, htail]
      rfl

theorem wholeRun_exponent (e : Exponent) (radix : Radix) (afterMark : Bool) (r : List UInt8) :
    ∃ afterMark', wholeRun (isHexRadix radix) afterMark (e.text radix ++ r) =
      e.text radix ++ wholeRun (isHexRadix radix) afterMark' r := by
  have hmark : isMark (isHexRadix radix) (radix.exponentMark e.upper) = true := by
    rw [isMark_iff]
    cases e.upper <;> simp
  have hrun : isRunChar (radix.exponentMark e.upper) = true := by
    simp [isRunChar, radix.isalnum_exponentMark]
  have hdigits : ∀ c ∈ e.digits, isRunChar c = true := fun c hc => by
    simp [isRunChar, isalnum_of_isxdigit c (isxdigit_of_isdigit c (e.decimal c hc))]
  simp only [Exponent.text, List.cons_append, List.append_assoc, wholeRun, hrun, hmark,
    Bool.true_or, if_true]
  cases hsign : e.sign with
  | none =>
      obtain ⟨afterMark', htail⟩ := wholeRun_append (isHexRadix radix) hdigits true r
      exact ⟨afterMark', by simp [signText, htail]⟩
  | some sign =>
      have hbyte : isSign sign.byte = true := by cases sign <;> decide
      obtain ⟨afterMark', htail⟩ := wholeRun_append (isHexRadix radix) hdigits
        (isMark (isHexRadix radix) sign.byte) r
      exact ⟨afterMark', by simp [signText, wholeRun, hbyte, htail]⟩

theorem isRunChar_mantissa {radix : Radix} {c : UInt8} (h : mantissa radix c = true) :
    isRunChar c = true := by
  simp only [mantissa, Bool.or_eq_true, beq_iff_eq] at h
  rcases h with h | rfl
  · simp [isRunChar, Radix.isalnum_of_isDigit h]
  · decide

theorem wholeRun_numeral (n : Numeral) (r : List UInt8) :
    ∃ afterMark, wholeRun (isHexRadix n.radix) false (n.text '.'.toUInt8 ++ r) =
      n.text '.'.toUInt8 ++ wholeRun (isHexRadix n.radix) afterMark r := by
  have hlead : ∀ c ∈ n.radix.lead ++ digitsText n, isRunChar c = true := by
    intro c hc
    rcases List.mem_append.mp hc with hc | hc
    · rcases isalnum_of_mem_lead hc with rfl | rfl | rfl <;> decide
    · exact isRunChar_mantissa (mantissa_digitsText n c hc)
  rw [Numeral.text, body_eq, ← List.append_assoc, List.append_assoc]
  obtain ⟨afterMark, hdigits⟩ := wholeRun_append (isHexRadix n.radix) hlead false
    (exponentText n.radix n.exponent ++ r)
  rw [hdigits]
  cases he : n.exponent with
  | none => exact ⟨afterMark, by simp [exponentText]⟩
  | some e =>
      obtain ⟨afterMark', hexponent⟩ := wholeRun_exponent e n.radix afterMark r
      refine ⟨afterMark', ?_⟩
      simp only [exponentText, Option.map_some, Option.getD_some, hexponent, List.append_assoc]

theorem isRunChar_of_continues {n : Numeral} {c : UInt8} (h : Continues n c) :
    isRunChar c = true := by
  unfold Continues at h
  split at h
  · simp [isRunChar, isalnum_of_isxdigit c (isxdigit_of_isdigit c h)]
  · rcases h with h | rfl | ⟨upper, rfl⟩ | ⟨-, rfl | rfl⟩
    · simp [isRunChar, Radix.isalnum_of_isDigit h]
    · decide
    · simp [isRunChar, n.radix.isalnum_exponentMark]
    · decide
    · decide

theorem isHexLead_of_numeral {n : Numeral} (h : lx.numeralText.1 = n.text '.'.toUInt8) :
    lx.isHexLead = isHexRadix n.radix := by
  obtain ⟨radix, s, hrest, hhex, htext⟩ := numeralText_eq lx
  rw [h] at htext
  rw [hhex]
  cases hradix : n.radix with
  | hexadecimal upper =>
      obtain ⟨x, hx, hmark⟩ := lead_hexadecimal upper
      rw [← hhex]
      refine isHexLead_cons hmark (s := n.body '.'.toUInt8 ++ lx.numeralText.2.rest) ?_
      rw [← lx.numeralText_rest, h, Numeral.text, hradix, hx]
      rfl
  | decimal =>
      cases radix with
      | decimal => rfl
      | hexadecimal upper =>
          obtain ⟨x, hx, hmark⟩ := lead_hexadecimal upper
          rw [hx, ← List.append_nil (n.text _)] at htext
          exact absurd (eq_zero_of_lead hradix hmark htext).2 (by simp)

theorem lexNumber_whole_iff (start : Lexer) :
    start.ReadsWhole start.lexNumber ↔ ¬ Splits start.numeralRun := by
  obtain ⟨beyond, hrest, hbeyond⟩ := wholeRun_prefix start.isHexLead false start.rest
  change start.rest = start.numeralRun ++ beyond at hrest
  have hscan := start.numeralText_rest
  constructor
  · rintro ⟨hwhole, hmalformed⟩ ⟨n, c, rest, hrun, hends⟩
    have htext : start.numeralText.1 = n.text '.'.toUInt8 := by
      refine (numeralText_eq_iff (r := c :: rest ++ beyond) ?_).mpr ?_
      · rw [hrest, hrun, List.append_assoc]
      · rintro d hd
        obtain rfl : c = d := by simpa using hd
        exact hends
    obtain ⟨t, hok, -, ht⟩ := lexNumber_of_numeral htext
    by_cases hnumeral : IsNumeral start.numeralRun
    · obtain ⟨t', behind, hok', -, ht', -⟩ := hwhole hnumeral
      obtain ⟨rfl, -⟩ := Prod.mk.inj (Except.ok.inj (hok.symm.trans hok'))
      rw [ht, hrun] at ht'
      simp at ht'
    · obtain ⟨text, herror⟩ := hmalformed hnumeral
      rw [hok] at herror
      cases herror
  · intro hsplits
    constructor
    · rintro ⟨n, hrun⟩
      have htext : start.numeralText.1 = n.text '.'.toUInt8 := by
        refine (numeralText_eq_iff (by rw [hrest, hrun])).mpr fun c hc hcontinues => ?_
        have hnone := hbeyond c hc
        rw [isRunChar_of_continues hcontinues] at hnone
        cases hnone
      obtain ⟨t, hok, hnumber, ht⟩ := lexNumber_of_numeral htext
      refine ⟨t, _, hok, hnumber, ht.trans hrun.symm, ?_⟩
      rw [hrun, ← htext, hscan]
    · intro hnot
      refine ⟨_, lexNumber_malformed ?_⟩
      rintro ⟨n, htext⟩
      have hfront : start.rest = n.text '.'.toUInt8 ++ start.numeralText.2.rest := by
        rw [← htext, hscan]
      obtain ⟨afterMark, hrun⟩ := wholeRun_numeral n start.numeralText.2.rest
      rw [← hfront, ← isHexLead_of_numeral htext] at hrun
      change start.numeralRun = _ at hrun
      obtain ⟨beyond', htail, -⟩ := wholeRun_prefix start.isHexLead afterMark
        start.numeralText.2.rest
      have hends := (numeralText_eq_iff hfront).mp htext
      cases hbehind : wholeRun start.isHexLead afterMark start.numeralText.2.rest with
      | nil => exact hnot ⟨n, by rw [hrun, hbehind, List.append_nil]⟩
      | cons c tail =>
          refine hsplits ⟨n, c, tail, by rw [hrun, hbehind], hends c ?_⟩
          rw [htail, hbehind]
          rfl

/-! ## The token at the start of a numeral -/

theorem lexOne_of_startsNumeral (hstart : lx.skipWhitespaceAndComments = .ok start)
    (hnumeral : start.StartsNumeral) : lx.lexOne = start.lexNumber := by
  have heos : start.eos = false := by
    rcases hnumeral with h | h
    · exact eos_of_class (by decide) h
    · exact eos_of_peekChar (by decide) h.1
  simp only [lexOne, hstart, heos]
  exact if_pos hnumeral

/--
Where a numeral starts the lexer returns a token for the whole run, or an error
if the run is no numeral; but a run that is a numeral and more is split, when the
first character behind the numeral does not continue it.
-/
theorem lexOne_whole_iff (hstart : lx.skipWhitespaceAndComments = .ok start)
    (hnumeral : start.StartsNumeral) :
    start.ReadsWhole lx.lexOne ↔ ¬ Splits start.numeralRun := by
  rw [lexOne_of_startsNumeral hstart hnumeral]
  exact lexNumber_whole_iff start

/-- The sign behind the exponent mark belongs to the run, the one behind the digits does not. -/
theorem lexOne_whole_iff_signs :
    let start : Lexer := { rest := "0x1Ep+4-2".toUTF8.toList, line := 1, col := 2 }
    start.ReadsWhole (new " 0x1Ep+4-2".toUTF8.toList).lexOne := by
  intro start
  have hstart : (new " 0x1Ep+4-2".toUTF8.toList).skipWhitespaceAndComments = .ok start := by
    decide +kernel
  refine (lexOne_whole_iff hstart (by decide +kernel)).mpr ?_
  rintro ⟨n, c, rest, hrun, hends⟩
  have hfront : ({ rest := start.numeralRun } : Lexer).rest =
      n.text '.'.toUInt8 ++ c :: rest := hrun
  have htext := (numeralText_eq_iff hfront).mpr fun d hd => by
    obtain rfl : c = d := by simpa using hd
    exact hends
  have hwhole : (Lexer.numeralText { rest := start.numeralRun }).1 = start.numeralRun := by
    decide +kernel
  rw [hwhole, hrun] at htext
  simp at htext

/-- A digit and a letter are two tokens. -/
theorem digit_letter_split :
    let start := new "3x".toUTF8.toList
    start.skipWhitespaceAndComments = .ok start ∧ start.StartsNumeral ∧
      ¬ start.ReadsWhole start.lexOne := by
  intro start
  refine ⟨by decide +kernel, by decide +kernel, ?_⟩
  rintro ⟨-, hmalformed⟩
  have hnot : ¬ IsNumeral start.numeralRun := by
    rintro ⟨n, hn⟩
    have hread : (readNumeral '.'.toUInt8 start.numeralRun).map Prod.snd = some [] := by
      rw [hn, readNumeral_text isPoint_dot n]
      rfl
    exact absurd hread (by decide +kernel)
  obtain ⟨text, herror⟩ := hmalformed hnot
  have hok : start.lexOne.isOk = true := by decide +kernel
  rw [herror] at hok
  cases hok

end Lexer

end Luatier
