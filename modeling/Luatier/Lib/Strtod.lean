import Luatier.Lib.Numeral

/-!
# Conversions from text in the C library

`stoll` and `stoull` in base 10, and `strtod`: each passes over white space, takes a
sign and reads as far as it can.  A byte sequence ends where the text does; a zero byte
in it is read by none of them, as if it ended there.
-/

namespace CStdlib

open CLocale Numerals Binary64

def consumed (s rest : List UInt8) : Nat := s.length - rest.length

/-- Nothing where there is no digit or the value does not fit: both are exceptions. -/
def stoll (s : List UInt8) : Option (Int × Nat) :=
  let subject := readSign (s.dropWhile isspace)
  let digits := subject.2.takeWhile isdigit
  let value : Int := if subject.1 = some .minus then -ofDigits 10 digits else ofDigits 10 digits
  if digits ≠ [] ∧ -2 ^ 63 ≤ value ∧ value < 2 ^ 63 then
    some (value, consumed s (subject.2.dropWhile isdigit))
  else none

def stoull (s : List UInt8) : Option (UInt64 × Nat) :=
  let subject := readSign (s.dropWhile isspace)
  let digits := subject.2.takeWhile isdigit
  let value := UInt64.ofNat (ofDigits 10 digits)
  if digits ≠ [] ∧ ofDigits 10 digits < 2 ^ 64 then
    some (if subject.1 = some .minus then -value else value,
      consumed s (subject.2.dropWhile isdigit))
  else none

def infinityWord : List UInt8 := ['i', 'n', 'f', 'i', 'n', 'i', 't', 'y'].map Char.toUInt8

def infWord : List UInt8 := ['i', 'n', 'f'].map Char.toUInt8

def nanWord : List UInt8 := ['n', 'a', 'n'].map Char.toUInt8

def beginsWith (word s : List UInt8) : Bool := (s.take word.length).map tolower == word

def isTagByte (c : UInt8) : Bool := isalnum c || c == 95

/-- What follows a not-a-number: letters, digits and underscores in parentheses belong to it. -/
def dropNanTag : List UInt8 → List UInt8
  | 40 :: s =>
      match s.dropWhile isTagByte with
      | 41 :: rest => rest
      | _ => 40 :: s
  | s => s

def quietNan : Nat := infinityMagnitude + 2 ^ 51

def readSpecial (s : List UInt8) : Option (Nat × List UInt8) :=
  if beginsWith infinityWord s then some (infinityMagnitude, s.drop infinityWord.length)
  else if beginsWith infWord s then some (infinityMagnitude, s.drop infWord.length)
  else if beginsWith nanWord s then some (quietNan, dropNanTag (s.drop nanWord.length))
  else none

/-- The value and the number of bytes read: none of them where nothing is converted. -/
def strtod (point : UInt8) (s : List UInt8) : Word × Nat :=
  let subject := readSign (s.dropWhile isspace)
  let negative : Bool := subject.1 = some .minus
  match readNumeral point subject.2 with
  | some (n, rest) => (ofRatio negative n.numerator n.denominator, consumed s rest)
  | none =>
      match readSpecial subject.2 with
      | some (magnitude, rest) =>
          (UInt64.ofNat ((if negative then 2 ^ 63 else 0) + magnitude), consumed s rest)
      | none => (0, 0)

example : (strtod 46 (['-', '0', 'x', '1', '.', '8', 'p', '1', 'z'].map Char.toUInt8)) =
    (0xC008000000000000, 8) := by
  decide +kernel

theorem isspace_of_isTagByte : ∀ c, isTagByte c = true → isspace c = false :=
  forall_byte (by decide +kernel)

variable {s word rest : List UInt8} {magnitude : Nat}

theorem eq_of_beginsWith (h : beginsWith word s = true) :
    (s.take word.length).map tolower = word := by
  simpa [beginsWith] using h

theorem dropNanTag_suffix (s : List UInt8) : dropNanTag s <:+ s := by
  unfold dropNanTag
  split
  · rename_i t
    split
    · rename_i rest heq
      have htail : rest <:+ t.dropWhile isTagByte := heq ▸ List.suffix_cons _ _
      exact (htail.trans (List.dropWhile_suffix _)).trans (List.suffix_cons _ _)
    · exact List.suffix_rfl
  · exact List.suffix_rfl

theorem readSpecial_suffix (h : readSpecial s = some (magnitude, rest)) : rest <:+ s := by
  simp only [readSpecial] at h
  split_ifs at h <;> obtain ⟨-, rfl⟩ := Prod.mk.inj (Option.some.inj h)
  · exact List.drop_suffix _ _
  · exact List.drop_suffix _ _
  · exact (dropNanTag_suffix _).trans (List.drop_suffix _ _)

theorem dropNanTag_eq_nil (h : dropNanTag s = []) :
    s = [] ∨ ∃ tag, s = 40 :: (tag ++ [41]) ∧ ∀ c ∈ tag, isTagByte c = true := by
  unfold dropNanTag at h
  split at h
  · rename_i t
    split at h
    · rename_i rest heq
      have hspan := List.takeWhile_append_dropWhile (p := isTagByte) (l := t)
      rw [heq, h] at hspan
      exact .inr ⟨t.takeWhile isTagByte, by rw [hspan], fun c hc => List.mem_takeWhile_imp hc⟩
    · simp at h
  · exact .inl h

theorem dropNanTag_tag {tag : List UInt8} (h : ∀ c ∈ tag, isTagByte c = true) :
    dropNanTag (40 :: (tag ++ [41])) = [] := by
  have hspan := (span_append (r := [41]) h (by simp [isTagByte]; decide)).2
  simp [dropNanTag, hspan]

theorem readSpecial_eq_nil (h : readSpecial s = some (magnitude, [])) :
    s.map tolower = infinityWord ∨ s.map tolower = infWord ∨ s.map tolower = nanWord ∨
      ∃ name tag, s = name ++ 40 :: (tag ++ [41]) ∧ name.map tolower = nanWord ∧
        ∀ c ∈ tag, isTagByte c = true := by
  have hwhole {word : List UInt8} (hword : beginsWith word s = true)
      (hdrop : s.drop word.length = []) : s.map tolower = word := by
    have htake := List.take_append_drop word.length s
    rw [hdrop, List.append_nil] at htake
    rw [← htake, eq_of_beginsWith hword]
  simp only [readSpecial] at h
  split_ifs at h with hinfinity hinf hnan <;> obtain ⟨-, hrest⟩ := Prod.mk.inj (Option.some.inj h)
  · exact .inl (hwhole hinfinity hrest)
  · exact .inr (.inl (hwhole hinf hrest))
  · rcases dropNanTag_eq_nil hrest with hdrop | ⟨tag, hdrop, htag⟩
    · exact .inr (.inr (.inl (hwhole hnan hdrop)))
    · refine .inr (.inr (.inr ⟨s.take nanWord.length, tag, ?_, eq_of_beginsWith hnan, htag⟩))
      rw [← hdrop, List.take_append_drop]

theorem readSpecial_infinity (h : s.map tolower = infinityWord) :
    readSpecial s = some (infinityMagnitude, []) := by
  have hlength : s.length = infinityWord.length := by rw [← h, List.length_map]
  have hbegins : beginsWith infinityWord s = true := by
    simp [beginsWith, ← hlength, h]
  simp [readSpecial, hbegins, ← hlength]

theorem readSpecial_nan {name tag : List UInt8} (hname : name.map tolower = nanWord)
    (htag : ∀ c ∈ tag, isTagByte c = true) :
    readSpecial (name ++ 40 :: (tag ++ [41])) = some (quietNan, []) := by
  have hlength : nanWord.length = name.length := by rw [← hname, List.length_map]
  have hnan : beginsWith nanWord (name ++ 40 :: (tag ++ [41])) = true := by
    simp [beginsWith, hlength, hname]
  have hother (word : List UInt8) (hword : word.head? = some 'i'.toUInt8) :
      ¬ beginsWith word (name ++ 40 :: (tag ++ [41])) = true := by
    intro h
    have hhead := congrArg List.head? (eq_of_beginsWith h)
    obtain ⟨c, rest, hcons⟩ : ∃ c rest, name = c :: rest := by
      cases name with
      | nil => simp [nanWord] at hname
      | cons c rest => exact ⟨c, rest, rfl⟩
    obtain ⟨d, word', hword'⟩ : ∃ d word', word = d :: word' := by
      cases word with
      | nil => simp at hword
      | cons d word' => exact ⟨d, word', rfl⟩
    subst hcons hword'
    have hn : tolower c = 'n'.toUInt8 := (List.cons.inj hname).1
    simp_all
    exact absurd hhead (by decide)
  simp [readSpecial, hother infinityWord rfl, hother infWord rfl, hnan, hlength,
    dropNanTag_tag htag]

end CStdlib
