import Luatier.Lib.Delimited
import Luatier.Frontend.Lexer

/-!
# Long brackets

A long string and a long comment end at the first brackets that close them.  The loop over
a string reads on behind the first character of what does not close it, the loop over a
comment behind its equals signs.  Equals signs are counted in an `int`, so brackets close a
level if their signs are as many up to the range of that type.
-/

namespace Luatier.Lexer

open Delimited CLocale

def longBracket (bracket : UInt8) (signs : Nat) : List UInt8 :=
  bracket :: (List.replicate signs '='.toUInt8 ++ [bracket])

abbrev opener : Nat → List UInt8 := longBracket '['.toUInt8

abbrev closer : Nat → List UInt8 := longBracket ']'.toUInt8

abbrev normal : List UInt8 → List UInt8 := normalise isNewline '\n'.toUInt8

theorem isNewline_newline : isNewline '\n'.toUInt8 = true := by decide

theorem isNewline_zero : isNewline 0 = false := by decide

abbrev lineBreaks : List UInt8 → Nat := breaks isNewline '\n'.toUInt8

variable {signs : Nat} {level : Int32} {lx : Lexer} {c : UInt8} {text rest : List UInt8}

/-! ## Characters -/

theorem peekChar_eq_iff (hc : c ≠ 0) : lx.peekChar 0 = c ↔ lx.rest.head? = some c := by
  cases hrest : lx.rest with
  | nil => simp [peekChar, hrest, hc.symm]
  | cons d rest => simp [peekChar, hrest]

theorem currIsNewline_cons (h : lx.rest = c :: rest) : lx.currIsNewline = isNewline c := by
  simp [currIsNewline, peekChar, h]

theorem get_cons (h : lx.rest = c :: rest) :
    lx.get = { lx with rest, col := if isNewline c then lx.col else lx.col + 1 } := by
  simp [get, h]

theorem incline_cons (h : lx.rest = c :: rest) :
    lx.incline =
      { lx with rest := pastPair isNewline c rest, line := lx.line + 1, col := 1 } := by
  have hpeek : lx.peekChar 0 = c := by simp [peekChar, h]
  simp only [incline, hpeek, get_cons h]
  cases rest with
  | nil => simp [currIsNewline, peekChar, isNewline_zero, pastPair]
  | cons d rest =>
      by_cases hpair : isNewline d = true ∧ d ≠ c
      · simp [currIsNewline, peekChar, pastPair, hpair, get]
      · simp [currIsNewline, peekChar, pastPair, hpair]

def equals (rest : List UInt8) : List UInt8 := rest.takeWhile (· == '='.toUInt8)

def behindEquals (rest : List UInt8) : List UInt8 := rest.dropWhile (· == '='.toUInt8)

theorem equals_eq (rest : List UInt8) :
    equals rest = List.replicate (equals rest).length '='.toUInt8 := by
  refine List.eq_replicate_iff.mpr ⟨rfl, fun c hc => ?_⟩
  simpa using List.mem_takeWhile_imp hc

theorem equals_append_behindEquals (rest : List UInt8) : equals rest ++ behindEquals rest = rest :=
  List.takeWhile_append_dropWhile

theorem equals_bracket {bracket : UInt8} (hbracket : (bracket == '='.toUInt8) = false)
    (signs : Nat) (after : List UInt8) :
    equals (List.replicate signs '='.toUInt8 ++ bracket :: after) =
        List.replicate signs '='.toUInt8 ∧
      behindEquals (List.replicate signs '='.toUInt8 ++ bracket :: after) = bracket :: after := by
  have hall : ∀ c ∈ List.replicate signs '='.toUInt8, (c == '='.toUInt8) = true := by simp
  simp [equals, behindEquals, List.takeWhile_append_of_pos hall,
    List.dropWhile_append_of_pos hall, hbracket]

/-! ## Closing brackets -/

theorem closer_prefix_iff :
    closer signs <+: ']'.toUInt8 :: rest ↔
      (equals rest).length = signs ∧ (behindEquals rest).head? = some ']'.toUInt8 := by
  constructor
  · rintro ⟨after, h⟩
    obtain rfl : List.replicate signs '='.toUInt8 ++ ']'.toUInt8 :: after = rest := by
      simpa [longBracket] using h
    obtain ⟨hequals, hbehind⟩ :=
      equals_bracket (by decide : (']'.toUInt8 == '='.toUInt8) = false) signs after
    simp [hequals, hbehind]
  · rintro ⟨rfl, hhead⟩
    obtain ⟨after, hafter⟩ : ∃ after, behindEquals rest = ']'.toUInt8 :: after := by
      cases hrest : behindEquals rest <;> simp_all
    refine ⟨after, ?_⟩
    have hrest := equals_append_behindEquals rest
    rw [equals_eq, hafter] at hrest
    simpa [longBracket] using hrest

theorem not_closer_cons (h : c ≠ ']'.toUInt8) : ¬ closer signs <+: c :: rest := by
  rintro ⟨after, hafter⟩
  exact h (List.cons.inj hafter).1.symm

theorem closer_unique {signs' : Nat} (h : closer signs <+: text) (h' : closer signs' <+: text) :
    signs = signs' := by
  cases text with
  | nil => exact absurd (List.prefix_nil.mp h) (by simp [longBracket])
  | cons c rest =>
      obtain rfl : c = ']'.toUInt8 := by
        by_contra hc
        exact not_closer_cons hc h
      exact (closer_prefix_iff.mp h).1.symm.trans (closer_prefix_iff.mp h').1

/-- The brackets in front that close a level by the count of their signs. -/
def closing (level : Int32) : List UInt8 → Option (List UInt8 × List UInt8)
  | [] => none
  | c :: rest =>
      if c = ']'.toUInt8 ∧ Int32.ofNat (equals rest).length = level ∧
          (behindEquals rest).head? = some ']'.toUInt8 then
        some (closer (equals rest).length, (behindEquals rest).tail)
      else none

theorem closing_eq_some_iff {delim after : List UInt8} :
    closing level text = some (delim, after) ↔
      ∃ signs, Int32.ofNat signs = level ∧ delim = closer signs ∧ text = closer signs ++ after := by
  constructor
  · intro h
    cases text with
    | nil => contradiction
    | cons c rest =>
        simp only [closing, Option.ite_none_right_eq_some, Option.some.injEq, Prod.mk.injEq] at h
        obtain ⟨⟨rfl, hlevel, hhead⟩, rfl, rfl⟩ := h
        refine ⟨_, hlevel, rfl, ?_⟩
        obtain ⟨after, hafter⟩ := closer_prefix_iff.mpr ⟨rfl, hhead⟩
        have hrest := (List.cons.inj hafter).2
        have hbehind := (equals_bracket (by decide : (']'.toUInt8 == '='.toUInt8) = false)
          (equals rest).length after).2
        have hsame : List.replicate (equals rest).length '='.toUInt8 ++ ']'.toUInt8 :: after =
            rest := by simpa using hrest
        rw [hsame] at hbehind
        rw [← hafter, hbehind]
        rfl
  · rintro ⟨signs, rfl, rfl, rfl⟩
    obtain ⟨hequals, hbehind⟩ :=
      equals_bracket (by decide : (']'.toUInt8 == '='.toUInt8) = false) signs after
    have hcons : closer signs ++ after =
        ']'.toUInt8 :: (List.replicate signs '='.toUInt8 ++ ']'.toUInt8 :: after) := by
      simp [longBracket]
    rw [hcons]
    simp [closing, hequals, hbehind]

theorem closing_splits (level : Int32) : Splits (closing level) := by
  intro text delim after h
  obtain ⟨signs, -, rfl, htext⟩ := closing_eq_some_iff.mp h
  exact htext

theorem closing_eq_none_iff :
    closing level text = none ↔ ∀ signs, Int32.ofNat signs = level → ¬ closer signs <+: text := by
  rw [Option.eq_none_iff_forall_ne_some]
  constructor
  · rintro h signs hlevel ⟨after, hafter⟩
    exact h (_, after) (closing_eq_some_iff.mpr ⟨signs, hlevel, rfl, hafter.symm⟩)
  · rintro h ⟨delim, after⟩ hsome
    obtain ⟨signs, hlevel, -, htext⟩ := closing_eq_some_iff.mp hsome
    exact h signs hlevel ⟨after, htext.symm⟩

theorem closing_cons_none (h : c ≠ ']'.toUInt8) : closing level (c :: rest) = none :=
  closing_eq_none_iff.mpr fun _ _ => not_closer_cons h

theorem closing_equals (h : closing level (']'.toUInt8 :: rest) = none) :
    ∀ i < (']'.toUInt8 :: equals rest).length,
      closing level ((']'.toUInt8 :: equals rest ++ behindEquals rest).drop i) = none := by
  intro i hi
  cases i with
  | zero =>
      rw [List.drop_zero, List.cons_append, equals_append_behindEquals]
      exact h
  | succ i =>
      have hlt : i < (equals rest).length := Nat.lt_of_succ_lt_succ hi
      have heq : (equals rest)[i] = '='.toUInt8 := by
        simpa using List.mem_takeWhile_imp (List.getElem_mem hlt)
      rw [List.cons_append, List.drop_succ_cons, List.drop_append_of_le_length hlt.le,
        List.drop_eq_getElem_cons hlt, heq]
      exact closing_cons_none (by decide)

theorem closing_newline (level : Int32) (c : UInt8) (tail : List UInt8)
    (h : isNewline c = true) : closing level (c :: tail) = none := by
  apply closing_cons_none
  rintro rfl
  exact absurd h (by decide)

theorem no_newline_equals (rest : List UInt8) :
    ∀ c ∈ ']'.toUInt8 :: equals rest, isNewline c = false := by
  intro c hc
  rcases List.mem_cons.mp hc with rfl | hc
  · decide
  · obtain rfl : c = '='.toUInt8 := by simpa using List.mem_takeWhile_imp hc
    decide

/-! ## Steps of the scanners -/

theorem exists_cons_of_peekChar (hc : c ≠ 0) (h : lx.peekChar 0 = c) :
    ∃ rest, lx.rest = c :: rest := by
  have hhead := (peekChar_eq_iff hc).mp h
  cases hrest : lx.rest with
  | nil => simp [hrest] at hhead
  | cons d rest =>
      obtain rfl : d = c := by simpa [hrest] using hhead
      exact ⟨rest, rfl⟩

theorem exists_cons_of_eos (h : ¬ lx.eos = true) : ∃ c rest, lx.rest = c :: rest := by
  cases hrest : lx.rest with
  | nil => simp [eos, hrest] at h
  | cons c rest => exact ⟨c, rest, rfl⟩

/-- What the scanners look at behind a bracket says whether the brackets close. -/
theorem closes_iff (h : lx.peekChar 0 = ']'.toUInt8) :
    closing level lx.rest ≠ none ↔
      lx.get.countEquals = level ∧
        (lx.get.skip (· == '='.toUInt8)).peekChar 0 = ']'.toUInt8 := by
  obtain ⟨rest, hrest⟩ := exists_cons_of_peekChar (by decide) h
  rw [hrest, peekChar_eq_iff (by decide), get_cons hrest]
  simp only [closing, true_and, ne_eq, ite_eq_right_iff, reduceCtorEq, imp_false, not_not]
  rfl

theorem past_bracket {bracket : UInt8} {after : List UInt8} (hzero : bracket ≠ 0)
    (hbracket : (bracket == '='.toUInt8) = false)
    (h : lx.rest = longBracket bracket signs ++ after) :
    lx.get.run (· == '='.toUInt8) = List.replicate signs '='.toUInt8 ∧
      (lx.get.skip (· == '='.toUInt8)).peekChar 0 = bracket ∧
      ∃ col, (lx.get.skip (· == '='.toUInt8)).get = { lx with rest := after, col } := by
  have hcons : lx.rest = bracket :: (List.replicate signs '='.toUInt8 ++ bracket :: after) := by
    simpa [longBracket] using h
  obtain ⟨hequals, hbehind⟩ := equals_bracket hbracket signs after
  rw [get_cons hcons]
  have hskip : (Lexer.skip { lx with
      rest := List.replicate signs '='.toUInt8 ++ bracket :: after,
      col := if isNewline bracket then lx.col else lx.col + 1 }
      (· == '='.toUInt8)).rest = bracket :: after := hbehind
  refine ⟨hequals, ?_, ?_⟩
  · rw [peekChar_eq_iff hzero, hskip]
    rfl
  · rw [get_cons hskip]
    exact ⟨_, rfl⟩

/-! ## The loops -/

section Ends

variable {β : Type} {message : String} {found : List UInt8 → List UInt8 → Lexer → β}
  {r : Except LexError β}

/-- A scan of the text ends behind the first brackets that close the level, so many lines
further on, or not at all. -/
def EndsAt (level : Int32) (message : String) (found : List UInt8 → List UInt8 → Lexer → β)
    (lx : Lexer) (text : List UInt8) (r : Except LexError β) : Prop :=
  ∃ col, r = upToFirst (closing level) text (.message message) fun body delim after =>
    found (normal body) delim
      { lx with rest := after, line := lx.line + lineBreaks body, col }

theorem EndsAt.skipped {skipped : List UInt8}
    (hopen : ∀ i < skipped.length, closing level ((skipped ++ rest).drop i) = none)
    (hnewline : ∀ c ∈ skipped, isNewline c = false)
    (h : EndsAt level message (fun text => found (skipped ++ text)) lx rest r) :
    EndsAt level message found lx (skipped ++ rest) r := by
  obtain ⟨col, rfl⟩ := h
  refine ⟨col, ?_⟩
  rw [upToFirst, upToFirst, cut_append hopen]
  cases cut (closing level) rest with
  | none => rfl
  | some r =>
      simp [normal, lineBreaks, normalise_append hnewline,
        breaks_append isNewline_newline hnewline]

theorem EndsAt.single (hopen : closing level (c :: rest) = none) (hnewline : isNewline c = false)
    (h : EndsAt level message (fun text => found (c :: text)) lx rest r) :
    EndsAt level message found lx (c :: rest) r := by
  have hskip : EndsAt level message found lx ([c] ++ rest) r :=
    EndsAt.skipped (by simpa using hopen) (by simpa using hnewline) h
  exact hskip

theorem EndsAt.newline (hc : isNewline c = true)
    (h : EndsAt level message (fun text => found ('\n'.toUInt8 :: text))
      { lx with line := lx.line + 1 } (pastPair isNewline c rest) r) :
    EndsAt level message found lx (c :: rest) r := by
  obtain ⟨col, rfl⟩ := h
  refine ⟨col, ?_⟩
  rw [upToFirst, upToFirst, cut_cons (closing_newline level c rest hc),
    cut_pastPair (closing_newline level)]
  cases cut (closing level) rest with
  | none => rfl
  | some r =>
      simp [normal, lineBreaks, normalise_newline hc, breaks_newline hc, Nat.add_assoc,
        Nat.add_comm 1]

theorem endsAt_nil : EndsAt level message found lx [] (.error (.message message)) :=
  ⟨0, by simp [upToFirst, cut, closing]⟩

theorem endsAt_closing {delim after : List UInt8} {x : β} (col : Nat)
    (hclosing : closing level text = some (delim, after))
    (hx : x = found [] delim { lx with rest := after, col }) :
    EndsAt level message found lx text (.ok x) :=
  ⟨col, by simp [upToFirst, cut_front hclosing, normal, lineBreaks, breaks, normalise, hx]⟩

end Ends

theorem skipLongComment_ends (level : Int32) (lx : Lexer) :
    EndsAt level "unfinished long comment near <eof>" (fun _ _ behind => behind) lx lx.rest
      (skipLongComment level lx) := by
  fun_induction skipLongComment level lx with
  | case1 lx heos =>
      have hrest : lx.rest = [] := by simpa [eos] using heos
      rw [hrest]
      exact endsAt_nil
  | case2 lx heos hnewline ih =>
      obtain ⟨c, rest, hrest⟩ := exists_cons_of_eos heos
      rw [currIsNewline_cons hrest] at hnewline
      rw [incline_cons hrest] at ih ⊢
      rw [hrest]
      exact ih.newline hnewline
  | case3 lx heos hnewline hbracket behind behind' hmatch =>
      simp only [matchChar] at hmatch
      split_ifs at hmatch with hlevel hnext
      obtain rfl := Option.some.inj hmatch
      obtain ⟨⟨delim, after⟩, hclosing⟩ :=
        Option.ne_none_iff_exists'.mp ((closes_iff hbracket).mpr ⟨hlevel, hnext⟩)
      obtain ⟨signs, -, -, hrest⟩ := closing_eq_some_iff.mp hclosing
      obtain ⟨-, -, col, hpast⟩ := past_bracket (by decide) (by decide) hrest
      simp only [behind, hpast]
      exact endsAt_closing col hclosing rfl
  | case4 lx heos hnewline hbracket behind hmatch ih =>
      have hopen : closing level lx.rest = none := by
        by_contra hclosing
        obtain ⟨hlevel, hnext⟩ := (closes_iff hbracket).mp hclosing
        simp [behind, hlevel, matchChar, hnext] at hmatch
      obtain ⟨rest, hrest⟩ := exists_cons_of_peekChar (by decide) hbracket
      obtain ⟨col, hbehind⟩ : ∃ col, behind = { lx with rest := behindEquals rest, col } := by
        simp only [behind, get_cons hrest]
        exact ⟨_, rfl⟩
      -- the scanner does not go back, but nothing closes from among the equals signs
      generalize skipLongComment level behind = r at ih ⊢
      rw [hrest] at hopen ⊢
      rw [hbehind] at ih
      have hends : EndsAt level _ (fun _ _ behind => behind) lx
          (']'.toUInt8 :: equals rest ++ behindEquals rest) r :=
        EndsAt.skipped (closing_equals hopen) (no_newline_equals rest) ih
      rwa [List.cons_append, equals_append_behindEquals] at hends
  | case5 lx heos hnewline hbracket ih =>
      obtain ⟨c, rest, hrest⟩ := exists_cons_of_eos heos
      rw [currIsNewline_cons hrest] at hnewline
      have hc : c ≠ ']'.toUInt8 := by
        rintro rfl
        exact hbracket (by simp [peekChar, hrest])
      rw [get_cons hrest] at ih ⊢
      rw [hrest]
      exact ih.single (closing_cons_none hc) (by simpa using hnewline)

theorem lexLongStringBody_ends (level : Int32) (lx : Lexer) (out near : List UInt8) :
    EndsAt level "unfinished long string near <eof>"
      (fun text delim behind => (out ++ text, near ++ (text ++ delim), behind)) lx lx.rest
      (lexLongStringBody level lx out near) := by
  fun_induction lexLongStringBody level lx out near with
  | case1 lx out near heos =>
      have hrest : lx.rest = [] := by simpa [eos] using heos
      rw [hrest]
      exact endsAt_nil
  | case2 lx out near heos hnewline ih =>
      obtain ⟨c, rest, hrest⟩ := exists_cons_of_eos heos
      rw [currIsNewline_cons hrest] at hnewline
      rw [incline_cons hrest] at ih ⊢
      rw [hrest]
      apply EndsAt.newline hnewline
      simp only [List.append_assoc, List.singleton_append] at ih ⊢
      exact ih
  | case3 lx out near c behind signs closed heos hnewline hclosed =>
      obtain ⟨hc, hlevel, hnext⟩ := hclosed
      obtain ⟨⟨delim, after⟩, hclosing⟩ :=
        Option.ne_none_iff_exists'.mp ((closes_iff hc).mpr ⟨hlevel, hnext⟩)
      obtain ⟨k, -, hdelim, hrest⟩ := closing_eq_some_iff.mp hclosing
      obtain ⟨hrun, -, col, hpast⟩ := past_bracket (by decide) (by decide) hrest
      have hread : c :: (signs ++ [']'.toUInt8]) = delim := by
        rw [hdelim, hc, show signs = _ from hrun]
        rfl
      rw [hread, show closed.get = _ from hpast]
      exact endsAt_closing col hclosing (by simp)
  | case4 lx out near c behind closed heos hnewline hopen ih =>
      obtain ⟨d, rest, hrest⟩ := exists_cons_of_eos heos
      have hd : c = d := by simp [c, peekChar, hrest]
      rw [currIsNewline_cons hrest] at hnewline
      -- the place is restored, so a bracket is one character of the string
      have hopen' : closing level (d :: rest) = none := by
        by_cases hc : c = ']'.toUInt8
        · by_contra hclosing
          rw [← hrest] at hclosing
          exact hopen ⟨hc, (closes_iff hc).mp hclosing⟩
        · exact closing_cons_none (hd ▸ hc)
      simp only [behind, get_cons hrest, hd, List.append_assoc, List.singleton_append] at ih ⊢
      rw [hrest]
      apply EndsAt.single hopen' (by simpa using hnewline)
      exact ih

/-! ## Whole strings and comments -/

/-- The string behind its opening brackets, with `body` up to its closing ones. -/
def stringToken (level : Int32) (lx : Lexer) (body delim : List UInt8) : Token :=
  let text := normal (dropNewline isNewline body)
  { kind := .string, text, near := opener level.toInt.toNat ++ (text ++ delim), line := lx.line,
    col := lx.col }

theorem lexLongString_eq (hlevel : ¬ level < 0) (lx : Lexer) :
    lx.lexLongString level =
      (lexLongStringBody level (if lx.currIsNewline then lx.incline else lx) []
        (opener level.toInt.toNat)).map fun (text, near, behind) =>
          ({ kind := .string, text, near, line := lx.line, col := lx.col }, behind) := by
  simp only [lexLongString, opener, longBracket, if_neg hlevel]
  split
  all_goals
    rename_i hbody
    rw [hbody]
    rfl

theorem lexLongString_ends (hlevel : ¬ level < 0) (lx : Lexer) :
    ∃ col, lx.lexLongString level =
      upToFirst (closing level) lx.rest (.message "unfinished long string near <eof>")
        fun body delim after => (stringToken level lx body delim,
          { lx with rest := after, line := lx.line + lineBreaks body, col }) := by
  rw [lexLongString_eq hlevel]
  by_cases hnewline : lx.currIsNewline = true
  · obtain ⟨c, rest, hrest⟩ : ∃ c rest, lx.rest = c :: rest :=
      exists_cons_of_eos (by simp [eos_of_class isNewline_zero hnewline])
    rw [if_pos hnewline, incline_cons hrest]
    rw [currIsNewline_cons hrest] at hnewline
    obtain ⟨col, hbody⟩ := lexLongStringBody_ends level
      { lx with rest := pastPair isNewline c rest, line := lx.line + 1, col := 1 } []
      (opener level.toInt.toNat)
    rw [upToFirst, cut_pastPair (closing_newline level)] at hbody
    refine ⟨col, ?_⟩
    rw [hbody, hrest, upToFirst, cut_cons (closing_newline level c rest hnewline)]
    cases cut (closing level) rest with
    | none => rfl
    | some r =>
        simp [Except.map, stringToken, dropNewline, hnewline, lineBreaks, breaks_newline hnewline,
          Nat.add_assoc, Nat.add_comm 1]
  · obtain ⟨col, hbody⟩ := lexLongStringBody_ends level lx [] (opener level.toInt.toNat)
    refine ⟨col, ?_⟩
    rw [if_neg hnewline, hbody, upToFirst, upToFirst]
    cases hcut : cut (closing level) lx.rest with
    | none => rfl
    | some r =>
        have htext := ((cut_eq_some_iff (closing_splits level)).mp hcut).text_eq
        have hdrop : dropNewline isNewline r.1 = r.1 := by
          cases hbody : r.1 with
          | nil => rfl
          | cons d body =>
              rw [hbody, List.cons_append] at htext
              rw [currIsNewline_cons htext] at hnewline
              rw [dropNewline, if_neg hnewline]
        simp [Except.map, stringToken, hdrop]

theorem skipWhitespace_eq_self (hblank : isBlank (lx.peekChar 0) = false)
    (hnewline : isNewline (lx.peekChar 0) = false) : skipWhitespace lx = lx := by
  rw [skipWhitespace, dif_neg (by simp [hblank]), dif_neg (by simp [currIsNewline, hnewline])]

section Opened

variable {content : List UInt8}

theorem past_opener (h : lx.rest = opener signs ++ content) :
    lx.get.countEquals = Int32.ofNat signs ∧
      (lx.get.skip (· == '='.toUInt8)).peekChar 0 = '['.toUInt8 ∧
      ∃ col, (lx.get.skip (· == '='.toUInt8)).get = { lx with rest := content, col } := by
  obtain ⟨hrun, hnext, hpast⟩ := past_bracket (by decide) (by decide) h
  exact ⟨by rw [countEquals, hrun, List.length_replicate], hnext, hpast⟩

theorem peekChar_opener (h : lx.rest = opener signs ++ content) :
    lx.peekChar 0 = '['.toUInt8 := by
  rw [peekChar_eq_iff (by decide), h]
  rfl

theorem skipComment_ends (h : lx.rest = opener signs ++ content) :
    ∃ col, skipComment lx =
      upToFirst (closing (Int32.ofNat signs)) content
        (.message "unfinished long comment near <eof>") fun body _ after =>
          { lx with rest := after, line := lx.line + lineBreaks body, col } := by
  obtain ⟨hlevel, hnext, start, hpast⟩ := past_opener h
  rw [skipComment, if_pos (peekChar_opener h)]
  simp only [hlevel, if_pos hnext, hpast]
  exact skipLongComment_ends _ _

theorem lexOne_opener (h : lx.rest = opener signs ++ content) :
    ∃ start, lx.lexOne = ({ lx with rest := content, col := start } : Lexer).lexLongString
      (Int32.ofNat signs) := by
  obtain ⟨hlevel, hnext, start, hpast⟩ := past_opener h
  have hpeek := peekChar_opener h
  have heos : lx.eos = false := eos_of_peekChar (by decide) hpeek
  have hblank : skipWhitespace lx = lx :=
    skipWhitespace_eq_self (by rw [hpeek]; decide) (by rw [hpeek]; decide)
  have hstart : lx.skipWhitespaceAndComments = .ok lx := by
    rw [skipWhitespaceAndComments, dif_neg, hblank]
    rw [hblank, hpeek]
    exact fun hdashes => absurd hdashes.1 (by decide)
  have hdigit : ¬ (isdigit '['.toUInt8 = true ∨
      '['.toUInt8 = '.'.toUInt8 ∧ isdigit (lx.peekChar 1) = true) := by
    rintro (hdigit | ⟨hdot, -⟩)
    · exact absurd hdigit (by decide)
    · exact absurd hdot (by decide)
  have hquote : ¬ ('['.toUInt8 = apostrophe ∨ '['.toUInt8 = quotes) := by decide
  refine ⟨start, ?_⟩
  simp only [lexOne, hstart, heos, hpeek, Bool.false_eq_true, if_false, if_neg hdigit,
    if_neg hquote, if_true]
  simp only [lexBracket, hlevel, if_pos hnext, hpast]

theorem lexOne_ends (h : lx.rest = opener signs ++ content) (hlevel : ¬ Int32.ofNat signs < 0) :
    ∃ start col, lx.lexOne =
      upToFirst (closing (Int32.ofNat signs)) content
        (.message "unfinished long string near <eof>") fun body delim after =>
          (stringToken (Int32.ofNat signs) { lx with rest := content, col := start } body delim,
            { lx with rest := after, line := lx.line + lineBreaks body, col }) := by
  obtain ⟨start, hopener⟩ := lexOne_opener h
  rw [hopener]
  exact ⟨start, lexLongString_ends hlevel _⟩

theorem lexOne_length (h : lx.rest = opener signs ++ content) (hlevel : Int32.ofNat signs < 0) :
    lx.lexOne = .error .length := by
  obtain ⟨start, hopener⟩ := lexOne_opener h
  rw [hopener, lexLongString, if_pos hlevel]

end Opened

theorem skipWhitespaceAndComments_dashes (h : lx.rest = '-'.toUInt8 :: '-'.toUInt8 :: rest) :
    ∃ col, skipWhitespaceAndComments lx =
      skipComment { lx with rest, col } >>= skipWhitespaceAndComments := by
  have hpeek : lx.peekChar 0 = '-'.toUInt8 := by simp [peekChar, h]
  have hblank : skipWhitespace lx = lx :=
    skipWhitespace_eq_self (by rw [hpeek]; decide) (by rw [hpeek]; decide)
  have hnext : lx.peekChar 1 = '-'.toUInt8 := by simp [peekChar, h]
  have hget : ∃ col, lx.get.get = { lx with rest, col } := by
    rw [get_cons h]
    exact ⟨_, rfl⟩
  obtain ⟨col, hget⟩ := hget
  refine ⟨col, ?_⟩
  rw [skipWhitespaceAndComments, dif_pos (by rw [hblank]; exact ⟨hpeek, hnext⟩), hblank, hget]
  split
  · rename_i hcomment
    rw [hcomment]
    rfl
  · rename_i hcomment
    rw [hcomment]
    rfl

/-! ## The first closing brackets -/

/-- Brackets whose signs are counted alike, but are not as many, stand only behind the
first closing ones. -/
def MiscountedBehind (signs : Nat) (content : List UInt8) : Prop :=
  ∀ i signs', signs' % 2 ^ 32 = signs % 2 ^ 32 → signs' ≠ signs →
    closer signs' <+: content.drop i → ∃ j < i, closer signs <+: content.drop j

section Miscounted

variable {content body delim after : List UInt8}

theorem count_eq_iff {signs' : Nat} :
    Int32.ofNat signs' = Int32.ofNat signs ↔ signs' % 2 ^ 32 = signs % 2 ^ 32 := by
  rw [← Int32.toBitVec_inj, Int32.toBitVec_ofNat', Int32.toBitVec_ofNat', ← BitVec.toNat_inj]
  simp

theorem count_neg_iff : Int32.ofNat signs < 0 ↔ 2 ^ 31 ≤ signs % 2 ^ 32 := by
  have hsize : Int32.size = 2 ^ 32 := rfl
  rw [Int32.lt_iff_toInt_lt, Int32.toInt_ofNat', Int32.toInt_zero, Int.bmod_def, hsize]
  omega

theorem MiscountedBehind.firstOf (h : MiscountedBehind signs content)
    (hfirst : First (closer signs) content body after) :
    FirstOf (closing (Int32.ofNat signs)) content body (closer signs) after := by
  obtain ⟨htext, hnone⟩ := hfirst
  refine ⟨by rw [htext, List.append_assoc], closing_eq_some_iff.mpr ⟨signs, rfl, rfl, rfl⟩,
    fun i hi => closing_eq_none_iff.mpr fun signs' hcount hcloser => ?_⟩
  by_cases hsigns : signs' = signs
  · exact hnone i hi (hsigns ▸ hcloser)
  · obtain ⟨j, hj, hright⟩ := h i signs' (count_eq_iff.mp hcount) hsigns hcloser
    exact hnone j (hj.trans hi) hright

theorem prefix_drop_of_infix {delim text : List UInt8} (h : delim <:+: text) :
    ∃ i ≤ text.length, delim <+: text.drop i := by
  obtain ⟨front, after, rfl⟩ := h
  refine ⟨front.length, by simp, after, ?_⟩
  rw [List.append_assoc, List.drop_left]

theorem infix_of_prefix_drop {delim text : List UInt8} {i : Nat} (h : delim <+: text.drop i) :
    delim <:+: text :=
  h.isInfix.trans (List.drop_suffix i text).isInfix

theorem MiscountedBehind.none_iff (h : MiscountedBehind signs content) :
    (∀ i ≤ content.length, closing (Int32.ofNat signs) (content.drop i) = none) ↔
      ¬ closer signs <:+: content := by
  constructor
  · intro hnone hinfix
    obtain ⟨i, hi, hcloser⟩ := prefix_drop_of_infix hinfix
    exact closing_eq_none_iff.mp (hnone i hi) signs rfl hcloser
  · refine fun hinfix i _ => closing_eq_none_iff.mpr fun signs' hcount hcloser => ?_
    by_cases hsigns : signs' = signs
    · exact hinfix (infix_of_prefix_drop (hsigns ▸ hcloser))
    · obtain ⟨j, -, hright⟩ := h i signs' (count_eq_iff.mp hcount) hsigns hcloser
      exact hinfix (infix_of_prefix_drop hright)

theorem miscountedBehind_of_length (hsigns : signs < 2 ^ 32) (h : content.length ≤ 2 ^ 32) :
    MiscountedBehind signs content := by
  intro i signs' hcount hne hcloser
  have hlength := hcloser.length_le
  simp only [longBracket, List.length_cons, List.length_append, List.length_replicate,
    List.length_nil, List.length_drop] at hlength
  omega

theorem closer_suffix_unique {signs' : Nat} {body' : List UInt8}
    (h : body ++ closer signs = body' ++ closer signs') : signs = signs' ∧ body = body' := by
  have hreverse : ∀ k, (closer k).reverse = closer k := by simp [longBracket]
  have hsame := congrArg List.reverse h
  rw [List.reverse_append, List.reverse_append, hreverse, hreverse] at hsame
  have hsigns : signs = signs' := closer_unique ⟨_, rfl⟩ ⟨_, hsame.symm⟩
  subst hsigns
  exact ⟨rfl, List.append_cancel_right h⟩

end Miscounted

/-- What a string and a comment between long brackets of one level are, in front of the
same content. -/
structure FirstCloserEnds (signs : Nat) (lx : Lexer) (content : List UInt8) : Prop where
  string : ∀ body after, First (closer signs) content body after →
    ∃ token col, lexOne { lx with rest := opener signs ++ content } =
        .ok (token, { lx with rest := after, line := lx.line + lineBreaks body, col }) ∧
      token.kind = .string ∧ token.text = normal (dropNewline isNewline body)
  comment : ∀ body after, First (closer signs) content body after →
    ∃ col, skipComment { lx with rest := opener signs ++ content } =
      .ok { lx with rest := after, line := lx.line + lineBreaks body, col }
  stringError : (∃ e, lexOne { lx with rest := opener signs ++ content } = .error e) ↔
    ¬ closer signs <:+: content
  commentError : (∃ e, skipComment { lx with rest := opener signs ++ content } = .error e) ↔
    ¬ closer signs <:+: content
  dashes : ∃ col, skipWhitespaceAndComments
      { lx with rest := '-'.toUInt8 :: '-'.toUInt8 :: (opener signs ++ content) } =
    skipComment { lx with rest := opener signs ++ content, col } >>= skipWhitespaceAndComments

theorem MiscountedBehind.firstCloserEnds {content : List UInt8}
    (h : MiscountedBehind signs content)
    (hneg : 2 ^ 31 ≤ signs % 2 ^ 32 → ¬ closer signs <:+: content) :
    FirstCloserEnds signs lx content := by
  have hsplits := closing_splits (Int32.ofNat signs)
  have hrest : Lexer.rest { lx with rest := opener signs ++ content } = opener signs ++ content :=
    rfl
  obtain ⟨col, hcomment⟩ := skipComment_ends hrest
  refine ⟨fun body after hfirst => ?_, fun body after hfirst => ?_, ?_, ?_,
    skipWhitespaceAndComments_dashes rfl⟩
  · have hinfix : closer signs <:+: content := ⟨body, after, hfirst.text_eq.symm⟩
    obtain ⟨start, col, hstring⟩ :=
      lexOne_ends hrest fun hlevel => hneg (count_neg_iff.mp hlevel) hinfix
    rw [hstring, upToFirst_ok hsplits (h.firstOf hfirst)]
    exact ⟨_, col, rfl, rfl, rfl⟩
  · rw [hcomment, upToFirst_ok hsplits (h.firstOf hfirst)]
    exact ⟨col, rfl⟩
  · by_cases hlevel : Int32.ofNat signs < 0
    · rw [lexOne_length hrest hlevel]
      exact iff_of_true ⟨_, rfl⟩ (hneg (count_neg_iff.mp hlevel))
    · obtain ⟨start, col, hstring⟩ := lexOne_ends hrest hlevel
      rw [hstring, upToFirst_error_iff, h.none_iff]
  · rw [hcomment, upToFirst_error_iff, h.none_iff]

/-- A comment that ends where it should has no miscounted brackets in front of its end. -/
theorem FirstCloserEnds.miscountedBehind {content : List UInt8}
    (h : FirstCloserEnds signs lx content) : MiscountedBehind signs content := by
  intro i signs' hcount hne hcloser
  have hrest : Lexer.rest { lx with rest := opener signs ++ content } = opener signs ++ content :=
    rfl
  obtain ⟨col, hcomment⟩ := skipComment_ends hrest
  have hcommentOk := h.comment
  have hcommentError := h.commentError
  rw [hcomment] at hcommentOk hcommentError
  cases hcut : cut (closing (Int32.ofNat signs)) content with
  | none =>
      have hlt : i ≤ content.length := by
        by_contra hlt
        rw [List.drop_eq_nil_of_le (by omega)] at hcloser
        exact absurd (List.prefix_nil.mp hcloser) (by simp [longBracket])
      have hnone := cut_eq_none_iff.mp hcut i hlt
      exact absurd hcloser (closing_eq_none_iff.mp hnone signs' (count_eq_iff.mpr hcount))
  | some r =>
      obtain ⟨body, delim, after⟩ := r
      have hfirst := (cut_eq_some_iff (closing_splits _)).mp hcut
      obtain ⟨signs'', -, rfl, -⟩ := closing_eq_some_iff.mp hfirst.here
      rw [upToFirst, hcut] at hcommentOk hcommentError
      have hinfix : closer signs <:+: content := by
        by_contra hinfix
        obtain ⟨e, he⟩ := hcommentError.mpr hinfix
        contradiction
      obtain ⟨body', after', hright⟩ := exists_first hinfix
      obtain ⟨col', heq⟩ := hcommentOk body' after' hright
      obtain rfl : after = after' := congrArg Lexer.rest (Except.ok.inj heq)
      have htext := hfirst.text_eq.symm.trans hright.text_eq
      rw [← List.append_assoc] at htext
      obtain ⟨rfl, rfl⟩ := closer_suffix_unique (List.append_cancel_right htext)
      have hhere : closer signs'' <+: content.drop body.length := by
        rw [hfirst.text_eq, List.drop_left]
        exact ⟨after, rfl⟩
      refine ⟨body.length, ?_, hhere⟩
      by_contra hle
      rcases Nat.lt_or_eq_of_le (Nat.le_of_not_lt hle) with hlt | heq'
      · have hnone := hfirst.first i hlt
        exact absurd hcloser (closing_eq_none_iff.mp hnone signs' (count_eq_iff.mpr hcount))
      · rw [heq'] at hcloser
        exact hne (closer_unique hcloser hhere)

/-- The closing brackets begin in others that do not close. -/
example : ∃ token col, lexOne { rest := opener 2 ++ [13, 10, 120, 93, 61, 93, 61, 61, 93, 121] } =
      .ok (token, { rest := [121], line := 2, col }) ∧
    token.kind = .string ∧ token.text = [120, 93, 61] := by
  have hbreaks : lineBreaks [13, 10, 120, 93, 61] = 1 := by decide +kernel
  have htext : normal (dropNewline isNewline [13, 10, 120, 93, 61]) = [120, 93, 61] := by
    decide +kernel
  have hends : FirstCloserEnds 2 { rest := [] } [13, 10, 120, 93, 61, 93, 61, 61, 93, 121] :=
    (miscountedBehind_of_length (by norm_num) (by norm_num)).firstCloserEnds
      fun hneg => absurd hneg (by norm_num)
  have h := hends.string [13, 10, 120, 93, 61] [121] ⟨by decide, by decide⟩
  rw [hbreaks, htext] at h
  exact h

end Luatier.Lexer
