import Mathlib.Data.List.DropRight
import Luatier.Lib.Strtod
import Luatier.Runtime.Value

/-!
# Strings as numbers

`try_to_number` with its helpers.  The decimal point of the locale is a parameter: the
conversion is about the one that is a dot.
-/

namespace Luatier

open CLocale CStdlib Numerals Binary64

namespace NumberStrings

def signLength (s : List UInt8) : Nat :=
  if s.head? = some '+'.toUInt8 ∨ s.head? = some '-'.toUInt8 then 1 else 0

def isNanOrInfToken (s : List UInt8) : Bool :=
  let word := (s.drop (signLength s)).map tolower
  word == nanWord || word == infWord

def str2d (dec : UInt8) (s : List UInt8) : Option Word :=
  if s = [] ∨ isNanOrInfToken s then none
  else if (strtod dec s).2 = s.length then some (strtod dec s).1
  else if dec ≠ '.'.toUInt8 ∧ s.contains '.'.toUInt8 then
    let t := s.map fun ch => if ch = '.'.toUInt8 then dec else ch
    if (strtod dec t).2 = t.length then some (strtod dec t).1 else none
  else none

def trim (s : List UInt8) : List UInt8 := (s.dropWhile isspace).rdropWhile isspace

def looksHex (s : List UInt8) : Bool :=
  match s.drop (signLength s) with
  | c :: x :: _ :: _ => c == '0'.toUInt8 && (x == 'x'.toUInt8 || x == 'X'.toUInt8)
  | _ => false

def hasFrac (dec : UInt8) (s : List UInt8) : Bool :=
  s.contains '.'.toUInt8 || s.contains dec ||
    (!looksHex s && (s.contains 'e'.toUInt8 || s.contains 'E'.toUInt8)) ||
    s.contains 'p'.toUInt8 || s.contains 'P'.toUInt8

/-- The scan for an integer: in hexadecimal it wraps, in decimal one that does not fit
is none. -/
def scanInteger (s : List UInt8) : Option Int64 :=
  if looksHex s then
    let digits := s.drop (signLength s + 2)
    if digits.all isxdigit then
      some (if s.head? = some '-'.toUInt8 then 0 - hexDigits digits else hexDigits digits).toInt64
    else none
  else
    match stoll s with
    | some (n, idx) => if idx = s.length then some (Int64.ofInt n) else none
    | none => none

/-- The last try, with the decimal point of the locale replaced behind the lead. -/
def hexFloat (dec : UInt8) (s : List UInt8) : Option Word :=
  if looksHex s then
    let lead := signLength s + 2
    let t := if dec ≠ '.'.toUInt8 then
        s.take lead ++ (s.drop lead).map fun ch => if ch = dec then '.'.toUInt8 else ch
      else s
    if (strtod dec t).2 = t.length then some (strtod dec t).1 else none
  else none

end NumberStrings

open NumberStrings

def stringToNumber (dec : UInt8) (s : List UInt8) : Option TValue :=
  let s := trim s
  if s = [] ∨ isNanOrInfToken s then none
  else
    match if hasFrac dec s then none else scanInteger s with
    | some n => some (.integer n)
    | none => ((str2d dec s).or (hexFloat dec s)).map .number

def tryToNumber (dec : UInt8) (view : Addr → List UInt8) : TValue → Option TValue
  | .integer n => some (.integer n)
  | .number w => some (.number w)
  | .string s => stringToNumber dec (view s)
  | _ => none

namespace NumberStrings

/-! ## The numerals that are meant -/

def signed (sign : Option Sign) (m : Nat) : Int := if sign = some .minus then -m else m

def integerValue (sign : Option Sign) (n : Numeral) : Option Int64 :=
  if n.IsInteger then
    match n.radix with
    | .hexadecimal _ => some (Int64.ofInt (signed sign n.significand))
    | .decimal =>
        if -2 ^ 63 ≤ signed sign n.significand ∧ signed sign n.significand < 2 ^ 63 then
          some (Int64.ofInt (signed sign n.significand))
        else none
  else none

def IsValue (sign : Option Sign) (n : Numeral) (v : TValue) : Prop :=
  match integerValue sign n with
  | some i => v = .integer i
  | none => ∃ w, v = .number w ∧
      CorrectlyRounded (sign = some .minus) n.numerator n.denominator w

def AllSpace (s : List UInt8) : Prop := ∀ c ∈ s, isspace c = true

/-- White space, a sign, a numeral and white space, of which no part but the numeral
has to be there. -/
def Denotes (s : List UInt8) (v : TValue) : Prop :=
  ∃ before sign n after, s = before ++ (signText sign ++ n.text '.'.toUInt8) ++ after ∧
    AllSpace before ∧ AllSpace after ∧ IsValue sign n v

/-- A text that denotes a number is converted to it, any other is not converted. -/
def Converts (s : List UInt8) : Option TValue → Prop
  | some v => Denotes s v
  | none => ∀ v, ¬ Denotes s v

/-- The words for infinity and not-a-number that are longer than three letters. -/
def IsSpelled (word : List UInt8) : Prop :=
  word.map tolower = infinityWord ∨
    ∃ name tag, word = name ++ '('.toUInt8 :: (tag ++ [')'.toUInt8]) ∧
      name.map tolower = nanWord ∧ ∀ c ∈ tag, isTagByte c = true

def SpelledOut (s : List UInt8) : Prop :=
  ∃ before sign word after, s = before ++ (signText sign ++ word) ++ after ∧
    AllSpace before ∧ AllSpace after ∧ IsSpelled word

/-! ## The text between the white space -/

def NoSpace (t : List UInt8) : Prop := ∀ c ∈ t, isspace c = false

variable {s t before after : List UInt8} {sign : Option Sign} {n : Numeral}

theorem NoSpace.dropWhile (ht : NoSpace t) : t.dropWhile isspace = t :=
  List.dropWhile_eq_self_iff.mpr fun hl => by simp [ht _ (List.getElem_mem hl)]

theorem NoSpace.append {r : List UInt8} (ht : NoSpace t) (hr : NoSpace r) : NoSpace (t ++ r) :=
  fun c hc => (List.mem_append.mp hc).elim (ht c) (hr c)

theorem NoSpace.rdropWhile (ht : NoSpace t) (hafter : AllSpace after) :
    (t ++ after).rdropWhile isspace = t := by
  have hreverse : NoSpace t.reverse := fun c hc => ht c (List.mem_reverse.mp hc)
  rw [List.rdropWhile, List.reverse_append,
    List.dropWhile_append_of_pos fun c hc => hafter c (List.mem_reverse.mp hc),
    hreverse.dropWhile, List.reverse_reverse]

theorem trim_between (hbefore : AllSpace before) (ht : NoSpace t) (hafter : AllSpace after) :
    trim (before ++ t ++ after) = t := by
  rw [trim, List.append_assoc, List.dropWhile_append_of_pos hbefore]
  cases t with
  | nil => simp [List.dropWhile_eq_nil_iff.mpr hafter]
  | cons c t =>
      rw [List.cons_append, List.dropWhile_cons_of_neg (by simp [ht c (List.mem_cons_self ..)])]
      exact ht.rdropWhile hafter

theorem exists_trim (s : List UInt8) :
    ∃ before after, s = before ++ trim s ++ after ∧ AllSpace before ∧ AllSpace after := by
  refine ⟨s.takeWhile isspace, (s.dropWhile isspace).rtakeWhile isspace, ?_, ?_, ?_⟩
  · simp [trim]
  · exact fun c hc => List.mem_takeWhile_imp hc
  · exact fun c hc => List.mem_rtakeWhile_imp hc

theorem dropWhile_trim (s : List UInt8) : (trim s).dropWhile isspace = trim s := by
  refine List.dropWhile_eq_self_iff.mpr fun hl => ?_
  have hstart : trim s <+: s.dropWhile isspace := List.rdropWhile_prefix _ _
  have hself := List.dropWhile_eq_self_iff.mp (List.dropWhile_idempotent (p := isspace) s)
  simpa [hstart.getElem hl] using hself (hl.trans_le hstart.length_le)

theorem noSpace_signText (sign : Option Sign) : NoSpace (signText sign) := by
  intro c hc
  rcases mem_signText hc with rfl | rfl <;> decide

theorem noSpace_text (n : Numeral) : NoSpace (n.text '.'.toUInt8) := by
  refine NoSpace.append ?_ ?_
  · cases n.radix with
    | decimal => simp [NoSpace, Radix.lead]
    | hexadecimal upper => cases upper <;> simp [NoSpace, Radix.lead, isspace]
  · intro c hc
    rcases mem_body.mp hc with h | ⟨-, rfl⟩ | ⟨e, -, rfl | h | h⟩
    · exact isspace_of_isalnum c (Radix.isalnum_of_isDigit (n.digits c h))
    · decide
    · exact isspace_of_isalnum _ (Radix.isalnum_exponentMark n.radix e.upper)
    · exact noSpace_signText e.sign c h
    · exact isspace_of_isalnum c (isalnum_of_isxdigit c (isxdigit_of_isdigit c (e.decimal c h)))

/-! ## The sign and the lead -/

theorem readSign_eq (s : List UInt8) :
    s.drop (signLength s) = (readSign s).2 ∧
      (s.head? = some '-'.toUInt8 ↔ (readSign s).1 = some .minus) := by
  cases s with
  | nil => simp [readSign, signLength]
  | cons c s =>
      have hplus : '+'.toUInt8 = 43 := by decide
      have hminus : '-'.toUInt8 = 45 := by decide
      simp only [readSign, signLength, hplus, hminus, List.head?_cons, Option.some.injEq]
      split_ifs <;> simp_all

theorem head_text (n : Numeral) :
    ∃ c r, n.text '.'.toUInt8 = c :: r ∧ (isdigit c = true ∨ c = '.'.toUInt8) := by
  cases hradix : n.radix with
  | hexadecimal upper =>
      exact ⟨48, _, by simp [Numeral.text, hradix, Radix.lead]; rfl, .inl (by decide)⟩
  | decimal =>
      have hdigits := n.digits
      simp only [Numeral.text, hradix, Radix.lead, List.nil_append, Numeral.body]
      cases hwhole : n.whole with
      | cons c r =>
          have hdigit := hdigits c (by simp [hwhole])
          exact ⟨c, _, rfl, .inl (by simpa [hradix, Radix.isDigit] using hdigit)⟩
      | nil =>
          cases hfraction : n.fraction with
          | none => exact absurd n.nonempty (by simp [hwhole, hfraction])
          | some f => exact ⟨_, _, rfl, .inr rfl⟩

theorem readSign_number (sign : Option Sign) (n : Numeral) :
    readSign (signText sign ++ n.text '.'.toUInt8) = (sign, n.text '.'.toUInt8) := by
  obtain ⟨c, r, htext, hc⟩ := head_text n
  refine readSign_text sign fun _ d hd => ?_
  rw [htext, List.head?_cons, Option.mem_some_iff] at hd
  subst hd
  rcases hc with hc | rfl
  · constructor <;> rintro rfl <;> exact absurd hc (by decide)
  · decide

theorem not_nanOrInf_number (sign : Option Sign) (n : Numeral) :
    isNanOrInfToken (signText sign ++ n.text '.'.toUInt8) = false := by
  obtain ⟨c, r, htext, hc⟩ := head_text n
  have hlower : tolower c ≠ 'n'.toUInt8 ∧ tolower c ≠ 'i'.toUInt8 := by
    rcases hc with hc | rfl
    · rw [tolower_of_isdigit c hc]
      constructor <;> rintro rfl <;> exact absurd hc (by decide)
    · decide
  rw [isNanOrInfToken, (readSign_eq _).1, readSign_number, htext]
  simp [nanWord, infWord, hlower]

theorem looksHex_number (sign : Option Sign) (n : Numeral) :
    looksHex (signText sign ++ n.text '.'.toUInt8) = true ↔ n.radix ≠ .decimal := by
  rw [looksHex, (readSign_eq _).1, readSign_number]
  cases hradix : n.radix with
  | hexadecimal upper =>
      obtain ⟨c, r, hbody⟩ := List.exists_cons_of_ne_nil (body_ne_nil '.'.toUInt8 n)
      cases upper <;> simp [Numeral.text, hradix, Radix.lead, hbody] <;> decide
  | decimal =>
      simp only [Numeral.text, hradix, Radix.lead, List.nil_append, ne_eq, not_true_eq_false,
        iff_false, Bool.not_eq_true]
      split
      · rename_i c x d r hbody
        have hx := not_hexadecimal_mark isPoint_dot hradix (x := x) (by rw [hbody]; simp)
        have hmarks : 'x'.toUInt8 = 120 ∧ 'X'.toUInt8 = 88 := by decide
        simp [hmarks, not_or.mp hx]
      · rfl

theorem isalnum_of_mem_lead {radix : Radix} {c : UInt8} (h : c ∈ radix.lead) :
    c = '0'.toUInt8 ∨ c = 'x'.toUInt8 ∨ c = 'X'.toUInt8 := by
  cases radix with
  | decimal => simp [Radix.lead] at h
  | hexadecimal upper =>
      cases upper <;> simp [Radix.lead] at h <;> rcases h with rfl | rfl <;> decide

theorem point_mem_number (sign : Option Sign) (n : Numeral) :
    '.'.toUInt8 ∈ signText sign ++ n.text '.'.toUInt8 ↔ n.fraction.isSome := by
  rw [Numeral.text, List.mem_append, List.mem_append, mem_body]
  constructor
  · rintro (h | h | h | h | ⟨e, -, h | h | h⟩)
    · exact absurd (mem_signText h) (by decide)
    · exact absurd (isalnum_of_mem_lead h) (by decide)
    · exact absurd (Radix.isalnum_of_isDigit (n.digits _ h)) (by decide)
    · exact h.1
    · exact absurd (h ▸ Radix.isalnum_exponentMark n.radix e.upper) (by decide)
    · exact absurd (mem_signText h) (by decide)
    · exact absurd (e.decimal _ h) (by decide)
  · exact fun h => .inr (.inr (.inr (.inl ⟨h, rfl⟩)))

theorem letter_mem_number (sign : Option Sign) {n : Numeral} {c : UInt8} (halpha : isalpha c = true)
    (hdigit : n.radix.isDigit c = false) (hlead : c ≠ 'x'.toUInt8 ∧ c ≠ 'X'.toUInt8) :
    c ∈ signText sign ++ n.text '.'.toUInt8 ↔
      ∃ e, n.exponent = some e ∧ c = n.radix.exponentMark e.upper := by
  rw [Numeral.text, List.mem_append, List.mem_append, mem_body]
  constructor
  · rintro (h | h | h | h | ⟨e, he, h | h | h⟩)
    · rcases mem_signText h with rfl | rfl <;> exact absurd halpha (by decide)
    · rcases isalnum_of_mem_lead h with rfl | rfl | rfl
      · exact absurd halpha (by decide)
      · exact absurd rfl hlead.1
      · exact absurd rfl hlead.2
    · exact absurd (n.digits c h) (by simp [hdigit])
    · rw [h.2] at halpha
      exact absurd halpha (by decide)
    · exact ⟨e, he, h⟩
    · rcases mem_signText h with rfl | rfl <;> exact absurd halpha (by decide)
    · simp [isalpha_of_isdigit c (e.decimal c h)] at halpha
  · rintro ⟨e, he, h⟩
    exact .inr (.inr (.inr (.inr ⟨e, he, .inl h⟩)))

theorem hasFrac_number (sign : Option Sign) (n : Numeral) :
    hasFrac '.'.toUInt8 (signText sign ++ n.text '.'.toUInt8) = true ↔ ¬ n.IsInteger := by
  have hhex := looksHex_number sign n
  simp only [hasFrac, Bool.or_eq_true, Bool.and_eq_true, Bool.not_eq_true', List.contains_iff_mem,
    point_mem_number, ← Bool.not_eq_true, hhex, Numeral.IsInteger]
  have hmarks : 'e'.toUInt8 = 101 ∧ 'E'.toUInt8 = 69 ∧ 'p'.toUInt8 = 112 ∧ 'P'.toUInt8 = 80 := by
    decide
  cases hradix : n.radix with
  | decimal =>
      rw [letter_mem_number sign (by decide) (by rw [hradix]; rfl) (by decide),
        letter_mem_number sign (by decide) (by rw [hradix]; rfl) (by decide),
        letter_mem_number sign (by decide) (by rw [hradix]; rfl) (by decide),
        letter_mem_number sign (by decide) (by rw [hradix]; rfl) (by decide)]
      cases n.fraction <;> cases hexponent : n.exponent <;> simp [hradix, Radix.exponentMark]
      rename_i e
      cases e.upper <;> decide
  | hexadecimal upper =>
      rw [letter_mem_number sign (c := 'p'.toUInt8) (by decide) (by rw [hradix]; rfl) (by decide),
        letter_mem_number sign (c := 'P'.toUInt8) (by decide) (by rw [hradix]; rfl) (by decide)]
      cases n.fraction <;> cases hexponent : n.exponent <;> simp [hradix, Radix.exponentMark]
      rename_i e
      cases e.upper <;> decide

/-! ## A numeral is converted to its value -/

def valueOf (sign : Option Sign) (n : Numeral) : TValue :=
  match integerValue sign n with
  | some i => .integer i
  | none => .number (ofRatio (sign = some .minus) n.numerator n.denominator)

theorem isValue_valueOf (sign : Option Sign) (n : Numeral) : IsValue sign n (valueOf sign n) := by
  simp only [IsValue, valueOf]
  split
  · rfl
  · exact ⟨_, rfl, ofRatio_correctlyRounded _ n.denominator_pos⟩

theorem strtod_number (sign : Option Sign) (n : Numeral) :
    strtod '.'.toUInt8 (signText sign ++ n.text '.'.toUInt8) =
      (ofRatio (sign = some .minus) n.numerator n.denominator,
        (signText sign ++ n.text '.'.toUInt8).length) := by
  have hspace := ((noSpace_signText sign).append (noSpace_text n)).dropWhile
  simp [strtod, hspace, readSign_number, readNumeral_text isPoint_dot, consumed]

theorem toInt64_ofNat (m : Nat) : (UInt64.ofNat m).toInt64 = Int64.ofInt m :=
  Int64.toBitVec_inj.mp (by simp)

theorem toInt64_neg (m : Nat) : (0 - UInt64.ofNat m).toInt64 = Int64.ofInt (-m) :=
  Int64.toBitVec_inj.mp (by simp)

theorem scanInteger_number (sign : Option Sign) {n : Numeral} (hint : n.IsInteger) :
    scanInteger (signText sign ++ n.text '.'.toUInt8) = integerValue sign n := by
  have hhex := looksHex_number sign n
  have hspace := ((noSpace_signText sign).append (noSpace_text n)).dropWhile
  have hsign := readSign_number sign n
  have hdrop := readSign_eq (signText sign ++ n.text '.'.toUInt8)
  have htext : n.text '.'.toUInt8 = n.radix.lead ++ n.whole := by
    simp [Numeral.text, Numeral.body, fractionText, exponentText, hint.1, hint.2]
  have hsignificand : n.significand = ofDigits n.radix.base n.whole := by
    simp [Numeral.significand, hint.1]
  have hwhole : ∀ c ∈ n.whole, n.radix.isDigit c = true := fun c hc =>
    n.digits c (List.mem_append_left _ hc)
  have hne : n.whole ≠ [] := by simpa [hint.1] using n.nonempty
  rw [hsign] at hdrop
  rw [scanInteger, integerValue, if_pos hint]
  cases hradix : n.radix with
  | hexadecimal upper =>
      have hdigits : (signText sign ++ n.text '.'.toUInt8).drop
          (signLength (signText sign ++ n.text '.'.toUInt8) + 2) = n.whole := by
        rw [← List.drop_drop, hdrop.1, htext, hradix]
        rfl
      have hall : n.whole.all isxdigit = true := by
        simpa [hradix, Radix.isDigit] using hwhole
      rw [if_pos (hhex.mpr (by simp [hradix]))]
      simp only [hdigits, hall, if_true, hdrop.2, hexDigits_eq, hsignificand, hradix, Radix.base,
        signed]
      split
      · rw [toInt64_neg]
      · rw [toInt64_ofNat]
  | decimal =>
      have hspan := span_append (r := []) (hradix ▸ hwhole) (by simp)
      rw [List.append_nil] at hspan
      rw [if_neg (fun h => hhex.mp h hradix)]
      simp only [hradix, Radix.lead, List.nil_append] at htext
      rw [htext] at hspace hsign ⊢
      simp only [stoll, hspace, hsign, hsignificand, hradix, Radix.base, signed]
      simp only [Radix.isDigit] at hspan
      simp only [hspan, ne_eq, hne, not_false_eq_true, true_and]
      generalize (if sign = some .minus then -(ofDigits 10 n.whole : Int)
        else ofDigits 10 n.whole) = value
      split_ifs with hfits
      · simp [consumed]
      · rfl

theorem stringToNumber_number (hbefore : AllSpace before) (hafter : AllSpace after)
    (sign : Option Sign) (n : Numeral) :
    stringToNumber '.'.toUInt8 (before ++ (signText sign ++ n.text '.'.toUInt8) ++ after) =
      some (valueOf sign n) := by
  have htrim := trim_between hbefore ((noSpace_signText sign).append (noSpace_text n)) hafter
  have hne : signText sign ++ n.text '.'.toUInt8 ≠ [] := by
    obtain ⟨c, r, htext, -⟩ := head_text n
    simp [htext]
  have hstr2d : str2d '.'.toUInt8 (signText sign ++ n.text '.'.toUInt8) =
      some (ofRatio (sign = some .minus) n.numerator n.denominator) := by
    simp [str2d, hne, not_nanOrInf_number, strtod_number]
  have hscan : (if hasFrac '.'.toUInt8 (signText sign ++ n.text '.'.toUInt8) then none
      else scanInteger (signText sign ++ n.text '.'.toUInt8)) = integerValue sign n := by
    by_cases hint : n.IsInteger
    · rw [if_neg (fun h => (hasFrac_number sign n).mp h hint), scanInteger_number sign hint]
    · rw [if_pos ((hasFrac_number sign n).mpr hint), integerValue, if_neg hint]
  simp only [stringToNumber, htrim, not_nanOrInf_number, hne, hscan, hstr2d, valueOf]
  cases integerValue sign n <;> simp

/-! ## What is converted -/

theorem text_of_looksHex (h : looksHex t = true) :
    ∃ upper r, r ≠ [] ∧ t = signText (readSign t).1 ++ (Radix.lead (.hexadecimal upper) ++ r) ∧
      t.drop (signLength t + 2) = r := by
  have htext := text_of_readSign t
  rw [← List.drop_drop, (readSign_eq t).1]
  rw [looksHex, (readSign_eq t).1] at h
  split at h
  · rename_i c x d r heq
    rw [heq] at htext ⊢
    obtain ⟨rfl, hx⟩ : c = '0'.toUInt8 ∧ (x = 'x'.toUInt8 ∨ x = 'X'.toUInt8) := by
      simpa using h
    rcases hx with rfl | rfl
    · exact ⟨false, d :: r, by simp, htext.symm, rfl⟩
    · exact ⟨true, d :: r, by simp, htext.symm, rfl⟩
  · simp at h

theorem eq_nil_of_consumed {rest : List UInt8} (hsuffix : rest <:+ t) (hne : t ≠ [])
    (h : consumed t rest = t.length) : rest = [] := by
  have hle := hsuffix.length_le
  have hpos := List.length_pos_iff.mpr hne
  rw [consumed] at h
  exact List.eq_nil_of_length_eq_zero (by omega)

theorem text_of_stoll {m : Int} (ht : t.dropWhile isspace = t) (h : stoll t = some (m, t.length)) :
    ∃ n : Numeral, t = signText (readSign t).1 ++ n.text '.'.toUInt8 := by
  have htext := text_of_readSign t
  simp only [stoll, ht, Option.ite_none_right_eq_some] at h
  obtain ⟨hdigits, h⟩ := h
  have hne : t ≠ [] := by
    rintro rfl
    simp [readSign] at hdigits
  have hrest : (readSign t).2.dropWhile isdigit = [] :=
    eq_nil_of_consumed ((List.dropWhile_suffix _).trans (readSign_suffix t)) hne
      (Prod.mk.inj (Option.some.inj h)).2
  have hall : ∀ c ∈ (readSign t).2, isdigit c = true := List.dropWhile_eq_nil_iff.mp hrest
  have hspan := List.takeWhile_append_dropWhile (p := isdigit) (l := (readSign t).2)
  rw [hrest, List.append_nil] at hspan
  refine ⟨⟨.decimal, (readSign t).2, none, none, ?_, by simpa [Radix.isDigit] using hall⟩, ?_⟩
  · simpa [hspan] using hdigits.1
  · simpa [Numeral.text, Numeral.body, Radix.lead, fractionText, exponentText] using htext.symm

theorem text_of_scanInteger {i : Int64} (ht : t.dropWhile isspace = t)
    (h : scanInteger t = some i) : ∃ sign n, t = signText sign ++ Numeral.text '.'.toUInt8 n := by
  simp only [scanInteger] at h
  by_cases hhex : looksHex t
  · obtain ⟨upper, r, hne, htext, hdrop⟩ := text_of_looksHex hhex
    rw [if_pos hhex, hdrop] at h
    by_cases hall : r.all isxdigit
    · refine ⟨(readSign t).1, ⟨.hexadecimal upper, r, none, none, by simpa using hne,
        by simpa [Radix.isDigit] using hall⟩, ?_⟩
      simpa [Numeral.text, Numeral.body, fractionText, exponentText] using htext
    · simp [hall] at h
  · rw [if_neg hhex] at h
    split at h
    · rename_i m idx hstoll
      split_ifs at h with hidx
      exact ⟨_, text_of_stoll ht (hidx ▸ hstoll)⟩
    · simp at h

theorem text_of_strtod (ht : t.dropWhile isspace = t) (hne : t ≠ [])
    (h : (strtod '.'.toUInt8 t).2 = t.length) :
    (∃ sign n, t = signText sign ++ Numeral.text '.'.toUInt8 n) ∨
      ∃ magnitude, readSpecial (readSign t).2 = some (magnitude, []) := by
  have htext := text_of_readSign t
  have hsuffix := readSign_suffix t
  simp only [strtod, ht] at h
  split at h
  · rename_i n rest hread
    have hbody := text_of_readNumeral hread
    have hread : rest <:+ (readSign t).2 := hbody ▸ List.suffix_append _ _
    have hrest := eq_nil_of_consumed (hread.trans hsuffix) hne h
    rw [hrest, List.append_nil] at hbody
    exact .inl ⟨_, n, by rw [hbody, htext]⟩
  · split at h
    · rename_i magnitude rest hread
      have hrest := eq_nil_of_consumed ((readSpecial_suffix hread).trans hsuffix) hne h
      exact .inr ⟨magnitude, hrest ▸ hread⟩
    · exact absurd h.symm (by simpa using hne)

theorem strtod_of_str2d {w : Word} (h : str2d '.'.toUInt8 t = some w) :
    (strtod '.'.toUInt8 t).2 = t.length := by
  simp only [str2d] at h
  split_ifs at h <;> simp_all

theorem strtod_of_hexFloat {w : Word} (h : hexFloat '.'.toUInt8 t = some w) :
    (strtod '.'.toUInt8 t).2 = t.length := by
  simp only [hexFloat] at h
  split_ifs at h <;> simp_all

theorem text_of_stringToNumber {v : TValue} (h : stringToNumber '.'.toUInt8 s = some v) :
    (∃ sign n, trim s = signText sign ++ Numeral.text '.'.toUInt8 n) ∨
      IsSpelled (readSign (trim s)).2 := by
  have ht := dropWhile_trim s
  simp only [stringToNumber] at h
  generalize trim s = t at ht h ⊢
  have htoken : ¬ (t = [] ∨ isNanOrInfToken t = true) := by
    intro htoken
    simp [htoken] at h
  rw [if_neg htoken] at h
  have hread (hend : (strtod '.'.toUInt8 t).2 = t.length) :
      (∃ sign n, t = signText sign ++ Numeral.text '.'.toUInt8 n) ∨ IsSpelled (readSign t).2 := by
    refine (text_of_strtod ht (not_or.mp htoken).1 hend).imp_right fun ⟨magnitude, hspecial⟩ => ?_
    have hshort : ¬ ((readSign t).2.map tolower = nanWord ∨
        (readSign t).2.map tolower = infWord) := by
      simpa [isNanOrInfToken, (readSign_eq t).1] using (not_or.mp htoken).2
    rcases readSpecial_eq_nil hspecial with hword | hword | hword | hword
    · exact .inl hword
    · exact absurd (.inr hword) hshort
    · exact absurd (.inl hword) hshort
    · exact .inr hword
  cases hscan : if hasFrac '.'.toUInt8 t then none else scanInteger t with
  | some i =>
      split_ifs at hscan
      exact .inl (text_of_scanInteger ht hscan)
  | none =>
      rw [hscan] at h
      obtain ⟨w, hw, -⟩ := Option.map_eq_some_iff.mp h
      rcases Option.or_eq_some_iff.mp hw with hw | ⟨-, hw⟩
      · exact hread (strtod_of_str2d hw)
      · exact hread (strtod_of_hexFloat hw)

theorem head_spelled {word : List UInt8} (h : IsSpelled word) :
    ∃ c r, word = c :: r ∧ (tolower c = 'i'.toUInt8 ∨ tolower c = 'n'.toUInt8) := by
  rcases h with h | ⟨name, tag, rfl, hname, -⟩
  · cases word with
    | nil => simp [infinityWord] at h
    | cons c r => exact ⟨c, r, rfl, .inl (List.cons.inj h).1⟩
  · cases name with
    | nil => simp [nanWord] at hname
    | cons c r => exact ⟨c, _, rfl, .inr (List.cons.inj hname).1⟩

theorem text_ne_spelled {word : List UInt8} (h : IsSpelled word) (rest : List UInt8) (n : Numeral) :
    n.text '.'.toUInt8 ++ rest ≠ word := by
  obtain ⟨c, r, hword, hlower⟩ := head_spelled h
  obtain ⟨d, r', htext, hd⟩ := head_text n
  rw [hword, htext, List.cons_append]
  intro heq
  obtain rfl := (List.cons.inj heq).1
  rcases hd with hd | rfl
  · rw [tolower_of_isdigit d hd] at hlower
    rcases hlower with rfl | rfl <;> exact absurd hd (by decide)
  · exact absurd hlower (by decide)

theorem noSpace_of_lower {word : List UInt8} (lower : List UInt8) (hlower : NoSpace lower)
    (h : word.map tolower = lower) : NoSpace word := by
  intro c hc
  by_contra hspace
  have htolower := tolower_of_isspace c (Bool.not_eq_false _ ▸ hspace)
  have hmem : c ∈ lower := h ▸ List.mem_map.mpr ⟨c, hc, htolower⟩
  exact hspace (hlower c hmem)

theorem noSpace_spelled {word : List UInt8} (h : IsSpelled word) : NoSpace word := by
  rcases h with h | ⟨name, tag, rfl, hname, htag⟩
  · exact noSpace_of_lower infinityWord (by simp [NoSpace, infinityWord]; decide) h
  · have hnan : NoSpace nanWord := by simp [NoSpace, nanWord]; decide
    refine (noSpace_of_lower nanWord hnan hname).append ?_
    intro c hc
    rcases List.mem_cons.mp hc with rfl | hc
    · decide
    rcases List.mem_append.mp hc with hc | hc
    · exact isspace_of_isTagByte c (htag c hc)
    · rw [List.mem_singleton.mp hc]
      decide

theorem readSign_spelled (sign : Option Sign) {word : List UInt8} (h : IsSpelled word) :
    readSign (signText sign ++ word) = (sign, word) := by
  obtain ⟨c, r, rfl, hlower⟩ := head_spelled h
  refine readSign_text sign fun _ d hd => ?_
  rw [List.head?_cons, Option.mem_some_iff] at hd
  subst hd
  constructor <;> rintro rfl <;> exact absurd hlower (by decide)

theorem not_nanOrInf_spelled (sign : Option Sign) {word : List UInt8} (h : IsSpelled word) :
    isNanOrInfToken (signText sign ++ word) = false := by
  rw [isNanOrInfToken, (readSign_eq _).1, readSign_spelled sign h]
  rcases h with h | ⟨name, tag, rfl, hname, -⟩
  · rw [h]
    decide
  · rw [List.map_append, hname]
    simp [nanWord, infWord]

theorem strtod_spelled (sign : Option Sign) {word : List UInt8} (h : IsSpelled word) :
    (strtod '.'.toUInt8 (signText sign ++ word)).2 = (signText sign ++ word).length := by
  have hspace := ((noSpace_signText sign).append (noSpace_spelled h)).dropWhile
  have hnumeral : readNumeral '.'.toUInt8 word = none := by
    by_contra hread
    obtain ⟨⟨n, rest⟩, hread⟩ := Option.ne_none_iff_exists'.mp hread
    exact text_ne_spelled h rest n (text_of_readNumeral hread)
  obtain ⟨magnitude, hspecial⟩ : ∃ magnitude, readSpecial word = some (magnitude, []) := by
    rcases h with h | ⟨name, tag, rfl, hname, htag⟩
    · exact ⟨_, readSpecial_infinity h⟩
    · exact ⟨_, readSpecial_nan hname htag⟩
  simp [strtod, hspace, readSign_spelled sign h, hnumeral, hspecial, consumed]

theorem stringToNumber_spelled (hbefore : AllSpace before) (hafter : AllSpace after)
    (sign : Option Sign) {word : List UInt8} (h : IsSpelled word) :
    (stringToNumber '.'.toUInt8 (before ++ (signText sign ++ word) ++ after)).isSome = true := by
  have htrim := trim_between hbefore ((noSpace_signText sign).append (noSpace_spelled h)) hafter
  have hne : signText sign ++ word ≠ [] := by
    obtain ⟨c, r, rfl, -⟩ := head_spelled h
    simp
  have htoken := not_nanOrInf_spelled sign h
  have hstr2d : (str2d '.'.toUInt8 (signText sign ++ word)).isSome = true := by
    simp [str2d, hne, htoken, strtod_spelled sign h]
  simp only [stringToNumber, htrim, hne, htoken, false_or, Bool.false_eq_true, if_false]
  split
  · rfl
  · simp [hstr2d]

theorem text_unique {t' before' after' : List UInt8}
    (h : before ++ t ++ after = before' ++ t' ++ after') (hbefore : AllSpace before)
    (ht : NoSpace t) (hafter : AllSpace after) (hbefore' : AllSpace before') (ht' : NoSpace t')
    (hafter' : AllSpace after') : t = t' := by
  rw [← trim_between hbefore ht hafter, h, trim_between hbefore' ht' hafter']

theorem not_denotes_spelled {v : TValue} (h : SpelledOut s) : ¬ Denotes s v := by
  rintro ⟨before', sign', n, after', hs', hbefore', hafter', -⟩
  obtain ⟨before, sign, word, after, hs, hbefore, hafter, hspelled⟩ := h
  have htext : signText sign ++ word = signText sign' ++ n.text '.'.toUInt8 :=
    text_unique (hs ▸ hs') hbefore ((noSpace_signText sign).append (noSpace_spelled hspelled))
      hafter hbefore' ((noSpace_signText sign').append (noSpace_text n)) hafter'
  have hread := readSign_spelled sign hspelled
  rw [htext, readSign_number] at hread
  exact text_ne_spelled hspelled [] n (by simpa using congrArg Prod.snd hread)

/-- The conversion accepts the numerals and nothing else, but for the words that spell
out infinity and not-a-number. -/
theorem tryToNumber_converts_iff (view : Addr → List UInt8) (a : Addr) :
    Converts (view a) (tryToNumber '.'.toUInt8 view (.string a)) ↔ ¬ SpelledOut (view a) := by
  rw [tryToNumber]
  constructor
  · rintro hconverts hspelled
    have ⟨before, sign, word, after, hview, hbefore, hafter, hword⟩ := hspelled
    have hsome := stringToNumber_spelled hbefore hafter sign hword
    rw [← hview] at hsome
    obtain ⟨v, hv⟩ := Option.isSome_iff_exists.mp hsome
    rw [hv] at hconverts
    exact not_denotes_spelled hspelled hconverts
  · intro hspelled
    cases hv : stringToNumber '.'.toUInt8 (view a) with
    | none =>
        rintro v ⟨before, sign, n, after, hview, hbefore, hafter, -⟩
        rw [hview, stringToNumber_number hbefore hafter] at hv
        simp at hv
    | some v =>
        obtain ⟨before, after, hview, hbefore, hafter⟩ := exists_trim (view a)
        rcases text_of_stringToNumber hv with ⟨sign, n, htrim⟩ | hword
        · rw [htrim] at hview
          rw [hview, stringToNumber_number hbefore hafter, Option.some.injEq] at hv
          exact ⟨before, sign, n, after, hview, hbefore, hafter, hv ▸ isValue_valueOf sign n⟩
        · refine absurd ⟨before, (readSign (trim (view a))).1, _, after, ?_, hbefore, hafter,
            hword⟩ hspelled
          rwa [text_of_readSign]

/-- The string `infinity` is converted to the float, and denotes no number. -/
theorem infinity_converted :
    tryToNumber '.'.toUInt8 (fun _ => infinityWord) (.string 0) =
        some (.number 0x7FF0000000000000) ∧
      ¬ Converts infinityWord (tryToNumber '.'.toUInt8 (fun _ => infinityWord) (.string 0)) := by
  have hrun : tryToNumber '.'.toUInt8 (fun _ => infinityWord) (.string 0) =
      some (.number 0x7FF0000000000000) := by
    decide
  refine ⟨hrun, ?_⟩
  rw [hrun]
  exact not_denotes_spelled ⟨[], none, infinityWord, [], by simp [signText], by simp [AllSpace],
    by simp [AllSpace], .inl (by decide)⟩

end NumberStrings

end Luatier
