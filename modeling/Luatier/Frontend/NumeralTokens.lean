import Luatier.Frontend.Lexer
import Luatier.Runtime.NumberStrings

/-!
# The numerals of the source and of strings

The scanner of the lexer and the conversion of strings agree on what the lexer accepts:
the text of a token for a number is converted to the value of the token.
-/

namespace Luatier

open CLocale CStdlib Numerals Binary64 NumberStrings

namespace Lexer

variable {lx behind : Lexer} {t : Token} {text : List UInt8}

def Token.value (t : Token) : TValue :=
  if t.kind = .integer then .integer t.integer else .number t.number

/-! ## The characters of the scan -/

def IsNumeralChar (c : UInt8) : Prop :=
  isalnum c = true ∨ c = '.'.toUInt8 ∨ c = '+'.toUInt8 ∨ c = '-'.toUInt8

theorem IsNumeralChar.ne_zero {c : UInt8} (h : IsNumeralChar c) : c ≠ 0 := by
  rintro rfl
  exact absurd h (by unfold IsNumeralChar; decide)

theorem IsNumeralChar.isspace {c : UInt8} (h : IsNumeralChar c) : isspace c = false := by
  rcases h with h | rfl | rfl | rfl
  · exact isspace_of_isalnum c h
  · decide
  · decide
  · decide

def IsNumeralHead (c : UInt8) : Prop :=
  isdigit c = true ∨ c = '.'.toUInt8 ∨ c = 'e'.toUInt8 ∨ c = 'E'.toUInt8

theorem run_append_skip (p : UInt8 → Bool) : lx.run p ++ (lx.skip p).rest = lx.rest :=
  List.takeWhile_append_dropWhile

theorem peekChar_cons_get {c : UInt8} (hc : c ≠ 0) (h : lx.peekChar 0 = c) :
    lx.peekChar 0 :: lx.get.rest = lx.rest := by
  have heos := eos_of_peekChar hc h
  cases hrest : lx.rest with
  | nil => simp [eos, hrest] at heos
  | cons d rest => simp [peekChar, get, hrest]

theorem peekChar_get {c d : UInt8} (hc : c ≠ 0) (h : lx.peekChar 0 = c) (hd : lx.peekChar 1 = d) :
    lx.get.peekChar 0 = d := by
  have hrest := peekChar_cons_get hc h
  rw [← hd, peekChar, peekChar, ← hrest]
  simp

theorem numeralLead_rest : lx.numeralLead.1 ++ lx.numeralLead.2.rest = lx.rest := by
  simp only [numeralLead]
  split
  · rename_i hlead
    simp only [isHexLead, Bool.and_eq_true, beq_iff_eq, Bool.or_eq_true] at hlead
    have hget : lx.get.peekChar 0 = lx.peekChar 1 := peekChar_get (by decide) hlead.1 rfl
    have hne : lx.peekChar 1 ≠ 0 := by
      rcases hlead.2 with h | h <;> rw [h] <;> decide
    have hsecond := peekChar_cons_get (hget ▸ hne) rfl
    rw [hget] at hsecond
    simp [hsecond, peekChar_cons_get (by decide) hlead.1]
  · rfl

theorem exponentSign_rest : lx.exponentSign.1 ++ lx.exponentSign.2.rest = lx.rest := by
  simp only [exponentSign]
  split
  · rename_i hsign
    rcases hsign with h | h <;> exact peekChar_cons_get (by decide) h
  · rfl

theorem numeralExponent_rest (isHex : Bool) :
    (lx.numeralExponent isHex).1 ++ (lx.numeralExponent isHex).2.rest = lx.rest := by
  simp only [numeralExponent]
  split
  · rename_i hmark
    have hne : lx.peekChar 0 ≠ 0 := by
      intro hzero
      rw [hzero] at hmark
      cases isHex <;> exact absurd hmark (by decide)
    simp [run_append_skip, exponentSign_rest, peekChar_cons_get hne rfl]
  · rfl

theorem numeralText_rest : lx.numeralText.1 ++ lx.numeralText.2.rest = lx.rest := by
  simp [numeralText, numeralExponent_rest, run_append_skip, numeralLead_rest]

theorem mem_run {p : UInt8 → Bool} {c : UInt8} (h : c ∈ lx.run p) : p c = true :=
  List.mem_takeWhile_imp h

theorem isNumeralChar_mantissa {isHex : Bool} {c : UInt8} (h : isMantissa isHex c = true) :
    IsNumeralChar c := by
  simp only [isMantissa, Bool.or_eq_true, beq_iff_eq] at h
  rcases h with h | h
  · refine .inl (isalnum_of_isxdigit c ?_)
    cases isHex with
    | true => exact h
    | false => exact isxdigit_of_isdigit c h
  · exact .inr (.inl h)

theorem isalnum_mark {isHex : Bool} {c : UInt8} (h : isMark isHex c = true) : isalnum c = true := by
  cases isHex <;>
    · simp only [isMark, Bool.false_eq_true, if_false, if_true, Bool.or_eq_true, beq_iff_eq] at h
      rcases h with rfl | rfl <;> decide

theorem numeralExponent_chars {isHex : Bool} {c : UInt8}
    (h : c ∈ (lx.numeralExponent isHex).1) : IsNumeralChar c := by
  simp only [numeralExponent] at h
  split at h
  · rename_i hmark
    rcases List.mem_cons.mp h with rfl | h
    · exact .inl (isalnum_mark hmark)
    rcases List.mem_append.mp h with h | h
    · simp only [exponentSign] at h
      split at h
      · rename_i hsign
        rw [List.mem_singleton.mp h]
        exact .inr (.inr hsign)
      · simp at h
    · exact .inl (isalnum_of_isxdigit c (isxdigit_of_isdigit c (mem_run h)))
  · simp at h

theorem numeralText_chars {c : UInt8} (h : c ∈ lx.numeralText.1) : IsNumeralChar c := by
  simp only [numeralText, List.mem_append] at h
  rcases h with h | h | h
  · simp only [numeralLead] at h
    split at h
    · rename_i hlead
      simp only [isHexLead, Bool.and_eq_true, beq_iff_eq, Bool.or_eq_true] at hlead
      simp only [hlead.1, List.mem_cons, List.not_mem_nil, or_false] at h
      rcases h with rfl | rfl
      · exact .inl (by decide)
      · rcases hlead.2 with h | h <;> rw [h] <;> exact .inl (by decide)
    · simp at h
  · exact isNumeralChar_mantissa (mem_run h)
  · exact numeralExponent_chars h

theorem numeralText_head {c : UInt8} (h : c ∈ lx.numeralText.1.head?) : IsNumeralHead c := by
  simp only [numeralText, numeralLead] at h
  by_cases hlead : lx.isHexLead = true
  · simp only [hlead, if_true, List.cons_append, List.head?_cons, Option.mem_some_iff] at h
    simp only [isHexLead, Bool.and_eq_true, beq_iff_eq] at hlead
    rw [← h, hlead.1]
    exact .inl (by decide)
  · rw [Bool.not_eq_true] at hlead
    simp only [hlead, Bool.false_eq_true, if_false, List.nil_append] at h
    cases hdigits : lx.run (isMantissa false) with
    | cons d digits =>
        rw [hdigits, List.cons_append, List.head?_cons, Option.mem_some_iff] at h
        have hmem : c ∈ lx.run (isMantissa false) := by
          rw [hdigits, h]
          exact List.mem_cons_self
        have hmantissa := mem_run hmem
        simp only [isMantissa, Bool.false_eq_true, if_false, Bool.or_eq_true,
          beq_iff_eq] at hmantissa
        exact hmantissa.imp_right .inl
    | nil =>
        rw [hdigits, List.nil_append] at h
        simp only [numeralExponent] at h
        split at h
        · rename_i hmark
          rw [List.head?_cons, Option.mem_some_iff] at h
          simp only [isMark, Bool.false_eq_true, if_false, Bool.or_eq_true, beq_iff_eq] at hmark
          exact h ▸ .inr (.inr hmark)
        · simp at h

/-! ## The two scanners on one text -/

section Text

variable (hchars : ∀ c ∈ text, IsNumeralChar c) (hhead : ∀ c ∈ text.head?, IsNumeralHead c)

include hhead

theorem head_not_sign {c : UInt8} (h : c ∈ text.head?) : c ≠ '+'.toUInt8 ∧ c ≠ '-'.toUInt8 := by
  rcases hhead c h with hc | rfl | rfl | rfl
  · constructor <;> rintro rfl <;> exact absurd hc (by decide)
  · decide
  · decide
  · decide

theorem signLength_text : signLength text = 0 := by
  cases text with
  | nil => rfl
  | cons c rest =>
      have := head_not_sign hhead (c := c) rfl
      simp [signLength, this]

theorem readSign_text_none : readSign text = (none, text) := by
  cases text with
  | nil => rfl
  | cons c rest =>
      have hsign := head_not_sign hhead (c := c) rfl
      have hbytes : '+'.toUInt8 = 43 ∧ '-'.toUInt8 = 45 := by decide
      rw [hbytes.1, hbytes.2] at hsign
      simp [readSign, hsign]

theorem looksHex_text : looksHex text = isHexNum text := by
  rw [looksHex, signLength_text hhead, List.drop_zero]
  rcases text with _ | ⟨c, _ | ⟨x, _ | ⟨d, rest⟩⟩⟩ <;> simp [isHexNum]

theorem hasFrac_text : hasFrac '.'.toUInt8 text = !pureInt text := by
  simp only [hasFrac, pureInt, looksHex_text hhead]
  cases text.contains '.'.toUInt8 <;> cases isHexNum text <;>
    cases text.contains 'e'.toUInt8 <;> cases text.contains 'E'.toUInt8 <;> simp

theorem not_nanOrInf_text : isNanOrInfToken text = false := by
  rw [isNanOrInfToken, signLength_text hhead, List.drop_zero]
  cases text with
  | nil => decide
  | cons c rest =>
      have hlower : tolower c ≠ 'n'.toUInt8 ∧ tolower c ≠ 'i'.toUInt8 := by
        rcases hhead c rfl with hc | rfl | rfl | rfl
        · rw [tolower_of_isdigit c hc]
          constructor <;> rintro rfl <;> exact absurd hc (by decide)
        · decide
        · decide
        · decide
      simp [nanWord, infWord, hlower]

omit hhead

include hchars

theorem noSpace_chars : NoSpace text := fun c hc => (hchars c hc).isspace

theorem trim_text : trim text = text := by
  have hempty : AllSpace [] := by simp [AllSpace]
  simpa using trim_between hempty (noSpace_chars hchars) hempty

include hhead

theorem decimal_cases : (stoull text = none ∧ stoll text = none) ∨
    ofDigits 10 (text.takeWhile isdigit) < 2 ^ 64 ∧
      stoull text = some (UInt64.ofNat (ofDigits 10 (text.takeWhile isdigit)),
        consumed text (text.dropWhile isdigit)) ∧
      stoll text = if ofDigits 10 (text.takeWhile isdigit) < 2 ^ 63 then
          some (((ofDigits 10 (text.takeWhile isdigit) : Nat) : Int),
            consumed text (text.dropWhile isdigit))
        else none := by
  have hfits (m : Nat) : (-2 ^ 63 ≤ (m : Int) ∧ (m : Int) < 2 ^ 63) ↔ m < 2 ^ 63 := by omega
  simp only [stoll, stoull, (noSpace_chars hchars).dropWhile, readSign_text_none hhead,
    reduceCtorEq, if_false, hfits]
  generalize ofDigits 10 (text.takeWhile isdigit) = m
  by_cases hdigits : text.takeWhile isdigit = []
  · simp [hdigits]
  · by_cases hlarge : m < 2 ^ 64
    · exact .inr ⟨hlarge, if_pos ⟨hdigits, hlarge⟩, by simp [hdigits]⟩
    · have hsmall : ¬ m < 2 ^ 63 := by omega
      exact .inl ⟨if_neg fun h => hlarge h.2, if_neg fun h => hsmall h.2⟩

omit hchars in
theorem scanInteger_text : scanInteger text =
    if isHexNum text then
      if (text.drop 2).all isxdigit then some (hexDigits (text.drop 2)).toInt64 else none
    else
      match stoll text with
      | some (n, idx) => if idx = text.length then some (Int64.ofInt n) else none
      | none => none := by
  have hplus : text.head? ≠ some '-'.toUInt8 := fun h => (head_not_sign hhead h).2 rfl
  have hscan := scanInteger.eq_1 text
  simp only [looksHex_text hhead, signLength_text hhead, hplus, if_false, Nat.zero_add] at hscan
  exact hscan

theorem stringToNumber_text (hne : text ≠ []) : stringToNumber '.'.toUInt8 text =
    match if pureInt text then scanInteger text else none with
    | some n => some (.integer n)
    | none => ((str2d '.'.toUInt8 text).or (hexFloat '.'.toUInt8 text)).map .number := by
  simp only [stringToNumber, trim_text hchars, hne, not_nanOrInf_text hhead, hasFrac_text hhead]
  cases pureInt text <;> rfl

omit hchars in
theorem str2d_text (hne : text ≠ [])
    (hend : (strtod '.'.toUInt8 text).2 = text.length) :
    str2d '.'.toUInt8 text = some (strtod '.'.toUInt8 text).1 := by
  simp [str2d, hne, not_nanOrInf_text hhead, hend]

omit hhead hchars in
theorem all_digits (hne : text ≠ [])
    (h : consumed text (text.dropWhile isdigit) = text.length) :
    text.takeWhile isdigit = text ∧ ∀ c ∈ text, isdigit c = true := by
  have hrest := eq_nil_of_consumed (List.dropWhile_suffix isdigit) hne h
  have hall := List.dropWhile_eq_nil_iff.mp hrest
  exact ⟨List.takeWhile_eq_self_iff.mpr hall, hall⟩

theorem scanInteger_none (htext : t.text = text) (h : integerToken t = none) :
    scanInteger text = none := by
  rw [scanInteger_text hhead]
  by_cases hhex : isHexNum text = true
  · simpa [integerToken, htext, hhex] using h
  · simp only [integerToken, htext, hhex, Bool.false_eq_true, if_false] at h ⊢
    rcases decimal_cases hchars hhead with ⟨-, hstoll⟩ | ⟨-, hstoull, hstoll⟩
    · rw [hstoll]
    · rw [hstoull] at h
      have hidx : consumed text (text.dropWhile isdigit) ≠ text.length := by
        intro hidx
        simp only [hidx, if_true] at h
        split at h <;> simp at h
      rw [hstoll]
      split_ifs
      · exact if_neg hidx
      · rfl

omit hchars hhead in
/-- A decimal between the greatest integer and `2 ^ 64` is a float on both ways. -/
theorem strtod_digits (hne : text ≠ []) (hall : ∀ c ∈ text, isdigit c = true)
    (hlt : ofDigits 10 text < 2 ^ 64) :
    strtod '.'.toUInt8 text = (Binary64.ofInt (ofDigits 10 text), text.length) := by
  have hnumber := strtod_number none
    ⟨.decimal, text, none, none, by simpa using hne, by simpa [Radix.isDigit] using hall⟩
  have hint : Numeral.IsInteger
      ⟨.decimal, text, none, none, by simpa using hne, by simpa [Radix.isDigit] using hall⟩ :=
    ⟨rfl, rfl⟩
  rw [hint.numerator, hint.denominator] at hnumber
  rw [ofInt_eq_ofRatio hlt]
  simpa [Numeral.text, Numeral.body, signText, Radix.lead, fractionText, exponentText,
    Radix.base] using hnumber

theorem converted_of_integerToken {t' : Token} (hne : text ≠ []) (htext : t.text = text)
    (hpure : pureInt text = true) (h : integerToken t = some t') :
    t'.text = text ∧ stringToNumber '.'.toUInt8 text = some t'.value := by
  rw [stringToNumber_text hchars hhead hne, hpure, if_pos rfl, scanInteger_text hhead]
  simp only [integerToken, htext] at h
  by_cases hhex : isHexNum text = true
  · simp only [hhex, if_true] at h ⊢
    split_ifs at h ⊢ with hall
    obtain rfl := Option.some.inj h
    exact ⟨rfl, rfl⟩
  · simp only [hhex, Bool.false_eq_true, if_false] at h ⊢
    rcases decimal_cases hchars hhead with ⟨hstoull, -⟩ | ⟨hlt, hstoull, hstoll⟩
    · simp [hstoull] at h
    · simp only [hstoull] at h
      split_ifs at h with hidx hsmall
      all_goals
        obtain rfl := Option.some.inj h
        obtain ⟨htaken, hall⟩ := all_digits hne hidx
        rw [htaken] at hlt hstoll
        refine ⟨rfl, ?_⟩
        have hpow : (2 ^ 63 : UInt64).toNat = 2 ^ 63 := by decide +kernel
        rw [htaken, UInt64.lt_iff_toNat_lt, UInt64.toNat_ofNat', Nat.mod_eq_of_lt hlt,
          hpow] at hsmall
      · rw [hstoll, if_pos hsmall]
        simp only [hidx, htaken, Token.value, toInt64_ofNat, if_true]
      · rw [hstoll, if_neg hsmall]
        have hread := strtod_digits hne hall hlt
        have hstr2d := str2d_text hhead hne (by rw [hread])
        have hnat : (UInt64.ofNat (ofDigits 10 text)).toNat = ofDigits 10 text := by
          rw [UInt64.toNat_ofNat', Nat.mod_eq_of_lt hlt]
        simp only [hstr2d, hread, htaken, hnat, Option.some_or, Option.map_some, Token.value,
          reduceCtorEq, if_false]

theorem converted_of_strtod (hend : (strtod '.'.toUInt8 text).2 = text.length) (hne : text ≠ [])
    (hscan : (if pureInt text then scanInteger text else none) = none) :
    stringToNumber '.'.toUInt8 text = some (.number (strtod '.'.toUInt8 text).1) := by
  rw [stringToNumber_text hchars hhead hne, hscan]
  simp [str2d_text hhead hne hend]

end Text

theorem strtod_le (point : UInt8) (s : List UInt8) : (strtod point s).2 ≤ s.length := by
  simp only [strtod]
  split
  · exact Nat.sub_le _ _
  · split
    · exact Nat.sub_le _ _
    · exact Nat.zero_le _

theorem end_of_text (hchars : ∀ c ∈ text, IsNumeralChar c) {idx : Nat} (hle : idx ≤ text.length)
    (h : text.getD idx 0 = 0) : idx = text.length := by
  by_contra hne
  have hlt : idx < text.length := by omega
  have hzero : text[idx] = 0 := by simpa [List.getD, hlt] using h
  exact (hchars _ (List.getElem_mem hlt)).ne_zero hzero

/-- The text of a numeral that the lexer accepts is converted to the value of the token. -/
theorem lexNumber_converted (h : lx.lexNumber = .ok (t, behind)) :
    t.text ++ behind.rest = lx.rest ∧ stringToNumber '.'.toUInt8 t.text = some t.value := by
  have hrest : lx.numeralText.1 ++ lx.numeralText.2.rest = lx.rest := numeralText_rest
  have hchars : ∀ c ∈ lx.numeralText.1, IsNumeralChar c := fun c => numeralText_chars
  have hhead : ∀ c ∈ lx.numeralText.1.head?, IsNumeralHead c := fun c => numeralText_head
  have hempty : ∀ t : Token, t.text = [] → integerToken t = none := by
    intro t htext
    simp [integerToken, htext, isHexNum, stoull, readSign]
  simp only [lexNumber] at h
  generalize lx.numeralText.1 = text at h hrest hchars hhead
  split at h
  · rename_i t' htoken
    split_ifs at htoken with hpure
    obtain ⟨rfl, rfl⟩ := Prod.mk.inj (Except.ok.inj h)
    have hne : text ≠ [] := by
      rintro rfl
      simp [hempty] at htoken
    obtain ⟨htext, hconverted⟩ := converted_of_integerToken hchars hhead hne rfl hpure htoken
    rw [htext]
    exact ⟨hrest, hconverted⟩
  · rename_i hnone
    split_ifs at h with hend
    obtain ⟨rfl, rfl⟩ := Prod.mk.inj (Except.ok.inj h)
    obtain ⟨hzero, hstop⟩ := not_or.mp hend
    have hend : text.getD (strtod '.'.toUInt8 text).2 0 = 0 := Decidable.not_not.mp hstop
    have hle := strtod_le '.'.toUInt8 text
    have hlength : (strtod '.'.toUInt8 text).2 = text.length := end_of_text hchars hle hend
    have hne : text ≠ [] := by
      rintro rfl
      exact hzero hlength
    refine ⟨hrest, converted_of_strtod hchars hhead hlength hne ?_⟩
    split_ifs at hnone ⊢
    · exact scanInteger_none hchars hhead (by rfl) hnone
    · rfl

/-! ## The tokens that are numbers -/

def Token.IsNumber (t : Token) : Prop := t.kind = .number ∨ t.kind = .integer

instance (t : Token) : Decidable t.IsNumber := inferInstanceAs (Decidable (_ ∨ _))

theorem lexString_kind {quote : UInt8} (h : lx.lexString quote = .ok (t, behind)) :
    ¬ t.IsNumber := by
  simp only [lexString] at h
  split at h
  · simp at h
  · obtain ⟨rfl, -⟩ := Prod.mk.inj (Except.ok.inj h)
    simp [Token.IsNumber]

theorem lexBracket_kind {t' : Token} (h : lx.lexBracket t' = .ok (t, behind)) :
    ¬ t.IsNumber := by
  simp only [lexBracket] at h
  split_ifs at h
  · simp only [lexLongString] at h
    split at h
    · simp at h
    · split at h
      · simp at h
      · obtain ⟨rfl, -⟩ := Prod.mk.inj (Except.ok.inj h)
        simp [Token.IsNumber]
  · obtain ⟨rfl, -⟩ := Prod.mk.inj (Except.ok.inj h)
    simp [Token.IsNumber]

theorem keywords_kind : ∀ kw ∈ keywords, kw.2 ≠ .number ∧ kw.2 ≠ .integer := by
  decide

theorem identOrKw_kind : ¬ lx.identOrKw.1.IsNumber := by
  simp only [identOrKw, Token.IsNumber, not_or]
  split
  · rename_i kw hfind
    exact keywords_kind kw (List.mem_of_find?_eq_some hfind)
  · simp

theorem singles_kind : ∀ symbol ∈ singles, symbol.2 ≠ .number ∧ symbol.2 ≠ .integer := by
  decide

theorem lexSymbol_kind (c : UInt8) :
    (lx.lexSymbol c).1 ≠ .number ∧ (lx.lexSymbol c).1 ≠ .integer := by
  simp only [lexSymbol]
  split
  · rename_i symbol hfind
    exact singles_kind symbol (List.mem_of_find?_eq_some hfind)
  · split_ifs <;> repeat' split
    all_goals simp

theorem lexOne_number (h : lx.lexOne = .ok (t, behind)) (hnumber : t.IsNumber) :
    ∃ start, lx.skipWhitespaceAndComments = .ok start ∧ start.lexNumber = .ok (t, behind) := by
  simp only [lexOne] at h
  split at h
  · simp at h
  · rename_i start hstart
    refine ⟨start, hstart, ?_⟩
    split_ifs at h
    · obtain ⟨rfl, -⟩ := Prod.mk.inj (Except.ok.inj h)
      simp [Token.IsNumber] at hnumber
    · exact h
    · exact absurd hnumber (lexString_kind h)
    · exact absurd hnumber (lexBracket_kind h)
    · rw [← (Prod.mk.inj (Except.ok.inj h)).1] at hnumber
      exact absurd hnumber identOrKw_kind
    all_goals
      obtain ⟨rfl, -⟩ := Prod.mk.inj (Except.ok.inj h)
      exact absurd hnumber (not_or.mpr (lexSymbol_kind _))

/-- The text of a token for a number stands in the source behind the white space, and
the conversion of strings gives it the value of the token. -/
theorem number_token_converted (h : lx.lexOne = .ok (t, behind)) (hnumber : t.IsNumber)
    (view : Addr → List UInt8) (a : Addr) (hview : view a = t.text) :
    (∃ start, lx.skipWhitespaceAndComments = .ok start ∧
      start.rest = t.text ++ behind.rest) ∧
      tryToNumber '.'.toUInt8 view (.string a) = some t.value := by
  obtain ⟨start, hstart, hlex⟩ := lexOne_number h hnumber
  obtain ⟨hrest, hconverted⟩ := lexNumber_converted hlex
  refine ⟨⟨start, hstart, hrest.symm⟩, ?_⟩
  rw [tryToNumber, hview, hconverted]

/-- A hexadecimal numeral of more than sixteen digits keeps its last sixty-four bits on both
ways. -/
theorem number_token_converted_hex :
    (∃ start, (new " 0x1FFFFFFFFFFFFFFFF+1".toUTF8.toList).skipWhitespaceAndComments = .ok start ∧
      start.rest = "0x1FFFFFFFFFFFFFFFF".toUTF8.toList ++ "+1".toUTF8.toList) ∧
      tryToNumber '.'.toUInt8 (fun _ => "0x1FFFFFFFFFFFFFFFF".toUTF8.toList) (.string 0) =
        some (.integer (-1)) :=
  have h : (new " 0x1FFFFFFFFFFFFFFFF+1".toUTF8.toList).lexOne =
      .ok ({ kind := .integer, text := "0x1FFFFFFFFFFFFFFFF".toUTF8.toList, integer := -1,
             line := 1, col := 2 }, { rest := "+1".toUTF8.toList, line := 1, col := 21 }) := by
    decide +kernel
  number_token_converted h (by decide) _ _ rfl

end Lexer

end Luatier
