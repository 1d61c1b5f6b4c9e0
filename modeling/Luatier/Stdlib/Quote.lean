import Luatier.Frontend.Lexer

/-!
# Quoted strings

The quoting of `string.format` with `%q`, and the lexer that reads it back.  What the
quoting leaves in front of a byte is never a newline, and never a digit behind a decimal
escape of fewer than three digits.
-/

namespace Luatier

open CLocale CStdlib Numerals Lexer

namespace Quote

def decimal (width n : Nat) : List UInt8 :=
  let digits := (Nat.toDigits 10 n).map Char.toUInt8
  List.replicate (width - digits.length) '0'.toUInt8 ++ digits

def quoteByte (c : UInt8) (next : Option UInt8) : List UInt8 :=
  if c = quotes ∨ c = backslash ∨ c = '\n'.toUInt8 then [backslash, c]
  else if iscntrl c then
    backslash :: (if next.any isdigit then decimal 3 c.toNat else decimal 0 c.toNat)
  else [c]

def quoteBytes : List UInt8 → List UInt8
  | [] => []
  | c :: s => quoteByte c s.head? ++ quoteBytes s

def formatQuote (s : List UInt8) : List UInt8 := quotes :: (quoteBytes s ++ [quotes])

/-! ## The bytes that are next -/

section Front

variable {lx : Lexer} {c : UInt8} {r : List UInt8} (h : lx.rest = c :: r)

include h

theorem eos_cons : lx.eos = false := by simp [eos, h]

theorem peekChar_cons : lx.peekChar 0 = c := by simp [peekChar, h]

theorem get_cons : lx.get.rest = r := by simp [Lexer.get, h]

theorem currIsNewline_cons : lx.currIsNewline = isNewline c := by
  simp [currIsNewline, peekChar_cons h]

end Front

variable {lx : Lexer} {s tail save out : List UInt8} {c : UInt8}

theorem isNewline_plain : ∀ c, ¬ (c = quotes ∨ c = backslash ∨ c = '\n'.toUInt8) →
    ¬ iscntrl c = true → isNewline c = false := by
  intro c _ hcontrol
  simp [iscntrl, isNewline, Char.toUInt8, UInt8.lt_iff_toNat_lt, ← UInt8.toNat_inj] at hcontrol ⊢
  omega

/-- What is in front is never a newline, and a digit only where the string has it. -/
theorem head_quoteBytes (s tail : List UInt8) {d : UInt8}
    (h : d ∈ (quoteBytes s ++ quotes :: tail).head?) :
    isNewline d = false ∧ (isdigit d = true → s.head? = some d) := by
  cases s with
  | nil =>
      simp only [quoteBytes, List.nil_append, List.head?_cons, Option.mem_some_iff] at h
      subst h
      decide
  | cons c s =>
      have hbackslash : isNewline backslash = false ∧ isdigit backslash = false := by decide
      simp only [quoteBytes, quoteByte] at h
      split at h
      · simp at h
        simp [← h, hbackslash]
      · rename_i hquoted
        split at h
        · simp at h
          simp [← h, hbackslash]
        · rename_i hcontrol
          simp at h
          subst h
          exact ⟨isNewline_plain c hquoted hcontrol, fun _ => rfl⟩

/-- The escape of a control character is its number, in three digits where it is padded. -/
theorem decimal_control : ∀ c, iscntrl c = true → ∀ width ∈ [0, 3],
    decimal width c.toNat ≠ [] ∧ (decimal width c.toNat).all isdigit = true ∧
      (decimal width c.toNat).length ≤ 3 ∧ (width = 3 → (decimal width c.toNat).length = 3) ∧
      ofDigits 10 (decimal width c.toNat) = c.toNat :=
  forall_byte (by decide +kernel)

/-! ## The escapes are read back -/

theorem digits_rest {digits r : List UInt8} (h : lx.rest = digits ++ r) :
    (digits.foldl (fun lx _ => lx.get) lx).rest = r := by
  induction digits generalizing lx with
  | nil => exact h
  | cons d digits ih => exact ih (get_cons h)

/-- A decimal escape is read to its last digit: the third, or one in front of no digit. -/
theorem decimalEscape_digits {e : UInt8} {digits r : List UInt8} (save : List UInt8)
    (h : lx.rest = digits ++ r) (hdigits : ∀ d ∈ digits, isdigit d = true)
    (hle : digits.length ≤ 2)
    (hstop : digits.length = 2 ∨ ∀ d ∈ r.head?, isdigit d = false)
    (hvalue : ofDigits 10 (e :: digits) ≤ 255) :
    ∃ save' behind, lx.decimalEscape e save =
      .ok ([UInt8.ofNat (ofDigits 10 (e :: digits))], save', behind) ∧ behind.rest = r := by
  have htaken : (lx.rest.take 2).takeWhile isdigit = digits := by
    rw [h]
    rcases hstop with hlength | hstop
    · rw [← hlength, List.take_left, List.takeWhile_eq_self_iff]
      exact hdigits
    · rw [List.take_append, List.take_of_length_le hle, List.takeWhile_append_of_pos hdigits]
      cases r with
      | nil => simp
      | cons d r =>
          cases 2 - digits.length with
          | zero => simp
          | succ k => simp [hstop d rfl]
  refine ⟨save ++ digits, digits.foldl (fun lx _ => lx.get) lx, ?_, digits_rest h⟩
  simp only [decimalEscape, htaken]
  rw [if_neg (by omega)]

/-- No letter that stands for itself or begins an escape of its own is a digit. -/
theorem letterEscape_digit : ∀ e, isdigit e = true →
    letterEscape e = none ∧ e ≠ 'x'.toUInt8 ∧ e ≠ 'u'.toUInt8 ∧ e ≠ 'z'.toUInt8 ∧
      isNewline e = false := by
  intro e h
  have hne (x : UInt8) (hx : isdigit x = false) : e ≠ x := by
    rintro rfl
    simp [h] at hx
  refine ⟨?_, hne _ (by decide), hne _ (by decide), hne _ (by decide), ?_⟩
  · have hquoted : ¬ (e = backslash ∨ e = apostrophe ∨ e = quotes) := by
      rintro (rfl | rfl | rfl) <;> exact hne _ (by decide) rfl
    simp only [letterEscape, if_neg hquoted]
    repeat rw [if_neg (hne _ (by decide))]
  · simp [isNewline, hne _ (by decide : isdigit '\n'.toUInt8 = false),
      hne _ (by decide : isdigit '\r'.toUInt8 = false)]

section Step

variable {r : List UInt8}

theorem lexStringBody_escape {escape : Escape} (h : lx.rest = backslash :: c :: r)
    (hc : isNewline c = false)
    (hescape : lx.get.lexEscape (save ++ [backslash]) = .ok escape) :
    lexStringBody quotes lx out save =
      lexStringBody quotes escape.2.2 (out ++ escape.1) escape.2.1 := by
  have hnext := get_cons h
  have hback : isNewline backslash = false ∧ backslash ≠ quotes := by decide
  rw [lexStringBody]
  simp only [eos_cons h, peekChar_cons h, currIsNewline_cons h, eos_cons hnext,
    currIsNewline_cons hnext, hc, hback, Bool.false_eq_true, dite_false, if_false, if_true]
  split
  · rename_i e heq
    simp [peekChar_cons h, hescape] at heq
  · rename_i escape' heq
    rw [peekChar_cons h] at heq
    obtain rfl := Except.ok.inj (hescape.symm.trans heq)
    rfl

theorem lexStringBody_quoted (h : lx.rest = backslash :: c :: r) (hc : c = quotes ∨ c = backslash) :
    ∃ save' behind, lexStringBody quotes lx out save =
      lexStringBody quotes behind (out ++ [c]) save' ∧ behind.rest = r := by
  have hletter : letterEscape c = some c ∧ isNewline c = false := by
    rcases hc with rfl | rfl <;> decide
  have hnext := get_cons h
  have hescape : lx.get.lexEscape (save ++ [backslash]) =
      .ok ([c], save ++ [backslash] ++ [c], lx.get.get) := by
    simp [lexEscape, peekChar_cons hnext, hletter]
  exact ⟨_, _, lexStringBody_escape h hletter.2 hescape, get_cons hnext⟩

theorem lexStringBody_newline (h : lx.rest = backslash :: '\n'.toUInt8 :: r)
    (hr : ∀ d ∈ r.head?, isNewline d = false) :
    ∃ save' behind, lexStringBody quotes lx out save =
      lexStringBody quotes behind (out ++ ['\n'.toUInt8]) save' ∧ behind.rest = r := by
  have hnext := get_cons h
  have hback : isNewline backslash = false ∧ backslash ≠ quotes := by decide
  have hnewline : isNewline '\n'.toUInt8 = true := by decide
  have hlone : lx.get.get.currIsNewline = false := by
    cases r with
    | nil => simp [currIsNewline, peekChar, get_cons hnext]; decide
    | cons d r => rw [currIsNewline_cons (get_cons hnext), hr d rfl]
  refine ⟨save ++ ['\n'.toUInt8], lx.get.incline, ?_, ?_⟩
  · rw [lexStringBody]
    simp [eos_cons h, peekChar_cons h, currIsNewline_cons h, eos_cons hnext,
      currIsNewline_cons hnext, hback, hnewline]
  · simp [incline, hlone, get_cons hnext]

theorem lexStringBody_control (width : Nat) (hwidth : width ∈ [0, 3])
    (h : lx.rest = backslash :: (decimal width c.toNat ++ r)) (hc : iscntrl c = true)
    (hr : width = 3 ∨ ∀ d ∈ r.head?, isdigit d = false) :
    ∃ save' behind, lexStringBody quotes lx out save =
      lexStringBody quotes behind (out ++ [c]) save' ∧ behind.rest = r := by
  have ⟨hne, hall, hle, hpadded, hvalue⟩ := decimal_control c hc width hwidth
  obtain ⟨e, digits, hdigits⟩ := List.exists_cons_of_ne_nil hne
  rw [hdigits] at h hall hle hpadded hvalue
  simp only [List.all_cons, Bool.and_eq_true, List.all_eq_true] at hall
  have hnext : lx.get.rest = e :: (digits ++ r) := get_cons h
  have ⟨hnone, hx, hu, hz, hnewline⟩ := letterEscape_digit e hall.1
  have hbyte : ofDigits 10 (e :: digits) ≤ 255 := by
    rw [hvalue]
    exact Nat.le_of_lt_succ c.toNat_lt
  have hstop : digits.length = 2 ∨ ∀ d ∈ r.head?, isdigit d = false :=
    hr.imp_left fun h => by simpa using hpadded h
  obtain ⟨save', behind, hdecimal, hbehind⟩ := decimalEscape_digits (save ++ [backslash] ++ [e])
    (get_cons hnext) hall.2 (Nat.le_of_succ_le_succ hle) hstop hbyte
  have hescape : lx.get.lexEscape (save ++ [backslash]) = .ok ([c], save', behind) := by
    rw [hvalue, UInt8.ofNat_toNat] at hdecimal
    simpa [lexEscape, peekChar_cons hnext, hnone, hx, hu, hz, hall.1] using hdecimal
  exact ⟨_, _, lexStringBody_escape h hnewline hescape, hbehind⟩

theorem lexStringBody_plain (h : lx.rest = c :: r)
    (hquoted : ¬ (c = quotes ∨ c = backslash ∨ c = '\n'.toUInt8)) (hc : ¬ iscntrl c = true) :
    ∃ save' behind, lexStringBody quotes lx out save =
      lexStringBody quotes behind (out ++ [c]) save' ∧ behind.rest = r := by
  have hnewline := isNewline_plain c hquoted hc
  refine ⟨save ++ [c], lx.get, ?_, get_cons h⟩
  rw [lexStringBody]
  simp [eos_cons h, peekChar_cons h, currIsNewline_cons h, hnewline, not_or.mp hquoted,
    (not_or.mp (not_or.mp hquoted).2).1]

end Step

theorem lexStringBody_quoteByte (out save : List UInt8)
    (h : lx.rest = quoteBytes (c :: s) ++ quotes :: tail) :
    ∃ save' behind, lexStringBody quotes lx out save =
      lexStringBody quotes behind (out ++ [c]) save' ∧
        behind.rest = quoteBytes s ++ quotes :: tail := by
  have hhead := fun d => head_quoteBytes s tail (d := d)
  simp only [quoteBytes, quoteByte] at h
  split at h
  · rename_i hquoted
    rcases hquoted with hc | hc | rfl
    · exact lexStringBody_quoted (by simpa using h) (.inl hc)
    · exact lexStringBody_quoted (by simpa using h) (.inr hc)
    · exact lexStringBody_newline (by simpa using h) fun d hd => (hhead d hd).1
  · rename_i hquoted
    split at h
    · rename_i hcontrol
      split at h
      · exact lexStringBody_control 3 (by simp) (by simpa using h) hcontrol (.inl rfl)
      · rename_i hnext
        refine lexStringBody_control 0 (by simp) (by simpa using h) hcontrol (.inr ?_)
        intro d hd
        by_contra hdigit
        rw [Bool.not_eq_false] at hdigit
        exact hnext (by simp [(hhead d hd).2 hdigit, hdigit])
    · rename_i hcontrol
      exact lexStringBody_plain (by simpa using h) hquoted hcontrol

theorem lexStringBody_quoteBytes (out save : List UInt8)
    (h : lx.rest = quoteBytes s ++ quotes :: tail) :
    ∃ save' behind, lexStringBody quotes lx out save = .ok (out ++ s, save', behind) ∧
      behind.rest = tail := by
  induction s generalizing lx out save with
  | nil =>
      have hquotes : isNewline quotes = false := by decide
      have hrest : lx.rest = quotes :: tail := h
      refine ⟨save ++ [quotes], lx.get, ?_, get_cons hrest⟩
      rw [lexStringBody]
      simp [eos_cons hrest, peekChar_cons hrest, currIsNewline_cons hrest, hquotes]
  | cons c s ih =>
      obtain ⟨save', behind, hstep, hbehind⟩ := lexStringBody_quoteByte out save h
      obtain ⟨save'', behind', hrest, hbehind'⟩ := ih (out ++ [c]) save' hbehind
      refine ⟨save'', behind', ?_, hbehind'⟩
      rw [hstep, hrest, List.append_assoc, List.singleton_append]

/-! ## The literal is one token -/

theorem skip_quotes {r : List UInt8} (h : lx.rest = quotes :: r) :
    lx.skipWhitespaceAndComments = .ok lx := by
  have hquotes : isBlank quotes = false ∧ isNewline quotes = false ∧ quotes ≠ '-'.toUInt8 := by
    decide
  have hspace : skipWhitespace lx = lx := by
    rw [skipWhitespace]
    simp [peekChar_cons h, currIsNewline_cons h, hquotes]
  rw [skipWhitespaceAndComments]
  simp [hspace, peekChar_cons h, hquotes]

theorem lexOne_formatQuote (h : lx.rest = formatQuote s ++ tail) :
    ∃ t behind, lx.lexOne = .ok (t, behind) ∧ t.kind = .string ∧ t.text = s ∧
      behind.rest = tail := by
  have hrest : lx.rest = quotes :: (quoteBytes s ++ quotes :: tail) := by
    simpa [formatQuote] using h
  have hquotes : isdigit quotes = false ∧ quotes ≠ '.'.toUInt8 := by decide
  obtain ⟨save, behind, hbody, hbehind⟩ :=
    lexStringBody_quoteBytes [] [quotes] (get_cons hrest)
  refine ⟨{ kind := .string, text := s, near := save, line := lx.line, col := lx.col }, behind, ?_,
    rfl, rfl, hbehind⟩
  simp [lexOne, skip_quotes hrest, eos_cons hrest, peekChar_cons hrest, hquotes, lexString, hbody]

/-- The lexer reads a quoted string back as one token with the bytes of the string,
wherever in a source the quoted string stands. -/
theorem formatQuote_lexed (s tail : List UInt8) (line col : Nat) :
    Lexer.new (formatQuote s ++ tail) = { rest := formatQuote s ++ tail } ∧
      ∃ t behind, Lexer.next { rest := formatQuote s ++ tail, line, col } = .ok (t, behind) ∧
        t.kind = .string ∧ t.text = s ∧ behind.rest = tail := by
  constructor
  · have hquotes : quotes ≠ '#'.toUInt8 := by decide
    simp [Lexer.new, formatQuote, hquotes]
  · have hrest : ({ rest := formatQuote s ++ tail, line, col } : Lexer).rest =
        formatQuote s ++ tail := rfl
    exact lexOne_formatQuote hrest

end Quote

end Luatier
