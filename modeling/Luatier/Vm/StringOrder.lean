import Mathlib.Data.List.Lex
import Mathlib.Data.List.TakeWhile
import Luatier.Lib.Comparison
import Luatier.Vm.Comparisons

/-!
# The order of strings

`string_cmp` hands both strings to `strcoll`, which sees them up to a zero, and goes on
behind the zero as long as the segments are equal.
-/

namespace Luatier

open Comparison

namespace StringOrder

/-- What a C function sees of a string: the bytes up to a zero, which is the terminator
when there is none among them. -/
def cString (l : List UInt8) : List UInt8 := l.takeWhile (· != 0)

/-- The difference of the first bytes that differ, the terminator included. -/
def strcmp : List UInt8 → List UInt8 → Int
  | [], [] => 0
  | [], d :: _ => 0 - d.toNat
  | c :: _, [] => c.toNat - 0
  | c :: l, d :: r => if c = d then strcmp l r else c.toNat - d.toNat

variable (strcoll : List UInt8 → List UInt8 → Int)

/-- `strcoll` of the C locale: it has the sign of `strcmp`. -/
def CLocale : Prop :=
  ∀ l r, (∀ c ∈ l ++ r, c ≠ 0) → (strcoll l r).sign = (strcmp l r).sign

/-- Equal segments have one length `len`, so that `lr -= len` stays in range. -/
def stringCmp (l r : List UInt8) : Int :=
  let temp := strcoll (cString l) (cString r)
  if temp ≠ 0 then temp
  else
    let len := (cString l).length
    if len = r.length then
      if len = l.length then 0 else 1
    else if len = l.length then -1
    else stringCmp (l.drop (len + 1)) (r.drop (len + 1))
termination_by l.length
decreasing_by
  rename_i hlen
  have hpos : 0 < l.length := by
    cases l with
    | nil => exact absurd rfl hlen
    | cons c l => simp
  rw [List.length_drop]
  omega

def stringLt (l r : List UInt8) : Bool := stringCmp strcoll l r < 0

def stringLe (l r : List UInt8) : Bool := stringCmp strcoll l r ≤ 0

/-! ## Segments -/

def byteValues (l : List UInt8) : List ℕ := l.map UInt8.toNat

theorem byteValues_inj {l r : List UInt8} : byteValues l = byteValues r ↔ l = r :=
  List.map_inj_right fun _ _ => UInt8.toNat_inj.mp

theorem byteValues_cons_lt {c d : UInt8} {l r : List UInt8} :
    byteValues (c :: l) < byteValues (d :: r) ↔
      c.toNat < d.toNat ∨ c = d ∧ byteValues l < byteValues r := by
  simp [byteValues, List.cons_lt_cons_iff, UInt8.toNat_inj]

theorem byteValues_append_lt (s : List UInt8) {l r : List UInt8} :
    byteValues (s ++ l) < byteValues (s ++ r) ↔ byteValues l < byteValues r := by
  induction s with
  | nil => rfl
  | cons c s ih => simp [byteValues_cons_lt, ih]

theorem mem_cString {l : List UInt8} {c : UInt8} (h : c ∈ cString l) : c ≠ 0 := by
  simpa using List.mem_takeWhile_imp h

theorem cString_cases (l : List UInt8) :
    l = cString l ∨ ∃ t, l = cString l ++ 0 :: t := by
  induction l with
  | nil => exact .inl rfl
  | cons c l ih =>
      by_cases hc : c = 0
      · exact .inr ⟨l, by simp [cString, hc]⟩
      · rcases ih with ih | ⟨t, ih⟩
        · left
          rw [cString, List.takeWhile_cons_of_pos (by simpa using hc), ← cString, ← ih]
        · right
          refine ⟨t, ?_⟩
          rw [cString, List.takeWhile_cons_of_pos (by simpa using hc), ← cString,
            List.cons_append, ← ih]

theorem toNat_pos {c : UInt8} (hc : c ≠ 0) : 0 < c.toNat :=
  Nat.pos_of_ne_zero fun h => hc (UInt8.toNat_inj.mp h)

theorem strcmp_cString (l r : List UInt8) :
    (strcmp (cString l) (cString r) < 0 → byteValues l < byteValues r) ∧
      (0 < strcmp (cString l) (cString r) → byteValues r < byteValues l) ∧
      (strcmp (cString l) (cString r) = 0 → cString l = cString r) := by
  induction l generalizing r with
  | nil =>
      cases r with
      | nil => simp [cString, strcmp]
      | cons d r =>
          by_cases hd : d = 0
          · simp [cString, strcmp, hd]
          · have hpos := toNat_pos hd
            simp [cString, strcmp, hd, byteValues]
            omega
  | cons c l ih =>
      by_cases hc : c = 0
      · cases r with
        | nil => simp [cString, strcmp, hc]
        | cons d r =>
            by_cases hd : d = 0
            · simp [cString, strcmp, hc, hd]
            · have hpos := toNat_pos hd
              simp [cString, strcmp, hc, hd, byteValues_cons_lt]
              omega
      · have hpos := toNat_pos hc
        cases r with
        | nil =>
            simp [cString, strcmp, hc, byteValues]
            omega
        | cons d r =>
            by_cases hd : d = 0
            · simp [cString, strcmp, hc, hd, byteValues_cons_lt]
              omega
            · have hcons (e : UInt8) (t : List UInt8) (he : e ≠ 0) :
                  cString (e :: t) = e :: cString t := by
                simp [cString, he]
              rw [hcons c l hc, hcons d r hd, strcmp]
              by_cases hcd : c = d
              · subst hcd
                rw [if_pos rfl]
                simpa [byteValues_cons_lt] using ih r
              · have hne : c.toNat ≠ d.toNat := fun h => hcd (UInt8.toNat_inj.mp h)
                rw [if_neg hcd]
                simp [byteValues_cons_lt, hcd]
                omega

/-! ## The loop -/

variable {strcoll}

theorem CLocale.segment (h : CLocale strcoll) (l r : List UInt8) :
    (strcoll (cString l) (cString r) < 0 → byteValues l < byteValues r) ∧
      (0 < strcoll (cString l) (cString r) → byteValues r < byteValues l) ∧
      (strcoll (cString l) (cString r) = 0 → cString l = cString r) := by
  have hsign := h (cString l) (cString r) fun c hc =>
    (List.mem_append.mp hc).elim mem_cString mem_cString
  obtain ⟨hneg, hpos, hzero⟩ := strcmp_cString l r
  refine ⟨fun ht => hneg ?_, fun ht => hpos ?_, fun ht => hzero ?_⟩
  · rw [← Int.sign_eq_neg_one_iff_neg, ← hsign]
    exact Int.sign_eq_neg_one_iff_neg.mpr ht
  · rw [← Int.sign_eq_one_iff_pos, ← hsign]
    exact Int.sign_eq_one_iff_pos.mpr ht
  · rw [← Int.sign_eq_zero_iff_zero, ← hsign]
    exact Int.sign_eq_zero_iff_zero.mpr ht

theorem byteValues_lt_append (s : List UInt8) (c : UInt8) (t : List UInt8) :
    byteValues s < byteValues (s ++ c :: t) := by
  have h := (byteValues_append_lt s (l := []) (r := c :: t)).mpr (by simp [byteValues])
  simpa using h

theorem stringCmp_spec (h : CLocale strcoll) (l r : List UInt8) :
    (stringCmp strcoll l r < 0 → byteValues l < byteValues r) ∧
      (0 < stringCmp strcoll l r → byteValues r < byteValues l) ∧
      (stringCmp strcoll l r = 0 → l = r) := by
  induction hn : l.length using Nat.strong_induction_on generalizing l r with
  | _ n ih =>
      obtain ⟨hneg, hpos, hzero⟩ := h.segment l r
      rw [stringCmp]
      by_cases htemp : strcoll (cString l) (cString r) = 0
      · have hl := cString_cases l
        have hr := cString_cases r
        rw [← hzero htemp] at hr
        simp only [htemp, ne_eq, not_true_eq_false, if_false]
        generalize cString l = s at hl hr
        rcases hl with rfl | ⟨l', rfl⟩
        · rcases hr with rfl | ⟨r', rfl⟩
          · simp
          · simp [byteValues_lt_append]
        · rcases hr with rfl | ⟨r', rfl⟩
          · simp [byteValues_lt_append]
          · -- both go on behind a zero
            have hdrop (t : List UInt8) : (s ++ 0 :: t).drop (s.length + 1) = t := by simp
            have hrest := ih l'.length (by simp at hn; omega) l' r' rfl
            simp only [hdrop, byteValues_append_lt, byteValues_cons_lt]
            simpa using hrest
      · simp only [htemp, ne_eq, not_false_eq_true, if_true]
        exact ⟨hneg, hpos, False.elim⟩

theorem stringCmp_neg_iff (h : CLocale strcoll) (l r : List UInt8) :
    stringCmp strcoll l r < 0 ↔ byteValues l < byteValues r := by
  obtain ⟨hneg, hpos, hzero⟩ := stringCmp_spec h l r
  refine ⟨hneg, fun hlt => ?_⟩
  rcases lt_trichotomy (stringCmp strcoll l r) 0 with ht | ht | ht
  · exact ht
  · rw [hzero ht] at hlt
    exact absurd hlt (lt_irrefl _)
  · exact absurd hlt (lt_asymm (hpos ht))

theorem stringCmp_pos_iff (h : CLocale strcoll) (l r : List UInt8) :
    0 < stringCmp strcoll l r ↔ byteValues r < byteValues l := by
  obtain ⟨hneg, hpos, hzero⟩ := stringCmp_spec h l r
  refine ⟨hpos, fun hlt => ?_⟩
  rcases lt_trichotomy (stringCmp strcoll l r) 0 with ht | ht | ht
  · exact absurd hlt (lt_asymm (hneg ht))
  · rw [hzero ht] at hlt
    exact absurd hlt (lt_irrefl _)
  · exact ht

theorem stringCmp_eq_zero_iff (h : CLocale strcoll) (l r : List UInt8) :
    stringCmp strcoll l r = 0 ↔ l = r := by
  refine ⟨(stringCmp_spec h l r).2.2, ?_⟩
  rintro rfl
  have hneg := stringCmp_neg_iff h l l
  have hpos := stringCmp_pos_iff h l l
  simp at hneg hpos
  omega

/-! ## The order -/

theorem stringCmp_exact (h : CLocale strcoll) :
    Exact (fun l => some (byteValues l)) (stringLt strcoll) (stringLe strcoll)
      (fun l r => stringCmp strcoll l r = 0) where
  lt_iff l r := by simp [stringLt, stringCmp_neg_iff h]
  le_iff l r := by
    have hpos := stringCmp_pos_iff h l r
    simp [stringLe, ← not_lt, hpos]
  eq_iff l r := by simp [stringCmp_eq_zero_iff h, byteValues_inj, eq_comm]

/-- The comparison has the sign of the lexicographic one, and is a total order. -/
theorem string_cmp_lexicographic (h : CLocale strcoll) :
    (∀ l r, (stringCmp strcoll l r < 0 ↔ byteValues l < byteValues r) ∧
      (stringCmp strcoll l r = 0 ↔ l = r) ∧
      (0 < stringCmp strcoll l r ↔ byteValues r < byteValues l)) ∧
    StrictTotal (fun _ => True) (stringLt strcoll) (fun l r => stringCmp strcoll l r = 0) := by
  refine ⟨fun l r => ⟨stringCmp_neg_iff h l r, stringCmp_eq_zero_iff h l r,
    stringCmp_pos_iff h l r⟩, ?_⟩
  simpa using (stringCmp_exact h).strictTotal

theorem string_cmp_lexicographic_zeros : stringCmp strcmp [97, 0] [97, 0, 98] < 0 := by
  have hlocale : CLocale strcmp := fun _ _ _ => rfl
  rw [((string_cmp_lexicographic hlocale).1 [97, 0] [97, 0, 98]).1]
  decide

end StringOrder

/-! ## Comparison of string values -/

/-- Strings are compared by `string_cmp`. -/
def Raw.collating (raw : Raw) (strcoll : List UInt8 → List UInt8 → Int) : Raw :=
  { raw with
    stringLt := fun L v w =>
      match v, w with
      | .string s, .string t => StringOrder.stringLt strcoll (L.interned.view s) (L.interned.view t)
      | _, _ => false
    stringLe := fun L v w =>
      match v, w with
      | .string s, .string t => StringOrder.stringLe strcoll (L.interned.view s) (L.interned.view t)
      | _, _ => false }

section Values

open StringOrder

variable {strcoll : List UInt8 → List UInt8 → Int} (raw : Raw) (a : Addr)
  (run : State → Result Unit) (s t : Addr) (L : State)

theorem metaLt_string (h : CLocale strcoll) :
    L.metaLt (raw.collating strcoll) a run (.string s) (.string t) =
      .ok (decide (byteValues (L.interned.view s) < byteValues (L.interned.view t))) L := by
  have hlt : stringLt strcoll (L.interned.view s) (L.interned.view t) =
      decide (byteValues (L.interned.view s) < byteValues (L.interned.view t)) := by
    simp [stringLt, stringCmp_neg_iff h]
  rw [← hlt]
  rfl

theorem metaLe_string (h : CLocale strcoll) :
    L.metaLe (raw.collating strcoll) a run (.string s) (.string t) =
      .ok (decide (byteValues (L.interned.view s) ≤ byteValues (L.interned.view t))) L := by
  have hle : stringLe strcoll (L.interned.view s) (L.interned.view t) =
      decide (byteValues (L.interned.view s) ≤ byteValues (L.interned.view t)) := by
    have hpos := stringCmp_pos_iff h (L.interned.view s) (L.interned.view t)
    simp [stringLe, ← not_lt, hpos]
  rw [← hle]
  rfl

end Values

end Luatier
