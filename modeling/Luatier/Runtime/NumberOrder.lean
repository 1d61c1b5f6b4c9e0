import Luatier.Lib.Comparison
import Luatier.Runtime.Value

/-!
# Comparison of numbers

Integers and floats are compared by their exact values.  An integer too large
for the mantissa of a float is compared with the float cut to an integer.
-/

namespace Luatier

open Binary64 Comparison

def intFitsFloat (i : Int64) : Bool :=
  decide (-(2 ^ 53) ≤ i.toInt) && decide (i.toInt ≤ 2 ^ 53)

def floatOfInt (i : Int64) : Datum := .fin (roundInt i.toInt)

def intOfFloat (f : Datum) : Int64 := Int64.ofInt f.truncInt64

def ltIntFloat (i : Int64) (w : Word) : Bool :=
  let f := decode w
  if f = .nan then false
  else if !intFitsFloat i then
    if (Datum.fin (2 ^ 63)).le f then true
    else if (Datum.fin (-(2 ^ 63))).lt f then decide (i < intOfFloat f)
    else false
  else (floatOfInt i).lt f

def leIntFloat (i : Int64) (w : Word) : Bool :=
  let f := decode w
  if f = .nan then false
  else if !intFitsFloat i then
    if (Datum.fin (2 ^ 63)).le f then true
    else if (Datum.fin (-(2 ^ 63))).le f then decide (i ≤ intOfFloat f)
    else false
  else (floatOfInt i).le f

def numberLt : TValue → TValue → Bool
  | .integer i, .integer j => decide (i < j)
  | .integer i, .number w => ltIntFloat i w
  | .number w, .number w' => (decode w).lt (decode w')
  | .number w, .integer j => if decode w = .nan then false else !leIntFloat j w
  | _, _ => false

def numberLe : TValue → TValue → Bool
  | .integer i, .integer j => decide (i ≤ j)
  | .integer i, .number w => leIntFloat i w
  | .number w, .number w' => (decode w).le (decode w')
  | .number w, .integer j => if decode w = .nan then false else !ltIntFloat j w
  | _, _ => false

/-- `to_number`, which is asked of numbers only. -/
def TValue.toNumber : TValue → Datum
  | .integer i => floatOfInt i
  | .number w => decode w
  | _ => .nan

/-- The two kinds of tagged values that are numbers. -/
inductive LuaNumber where
  | int (i : Int64)
  | float (w : Word)
  deriving DecidableEq, Repr

namespace LuaNumber

def tvalue : LuaNumber → TValue
  | .int i => .integer i
  | .float w => .number w

def datum : LuaNumber → Datum
  | .int i => .fin i.toInt
  | .float w => decode w

def value? (v : LuaNumber) : Option Extended := v.datum.value?

end LuaNumber

theorem intFitsFloat_iff {i : Int64} :
    intFitsFloat i = true ↔ -(2 ^ 53) ≤ i.toInt ∧ i.toInt ≤ 2 ^ 53 := by
  rw [intFitsFloat, Bool.and_eq_true, decide_eq_true_eq, decide_eq_true_eq]

theorem floatOfInt_of_fits {i : Int64} (h : intFitsFloat i = true) :
    floatOfInt i = .fin i.toInt := by
  obtain ⟨hlow, hhigh⟩ := intFitsFloat_iff.mp h
  rw [floatOfInt, roundInt_of_small hlow hhigh]

/-- A float cut to an integer that does not fit the mantissa, or is not beyond it. -/
theorem intOfFloat_of_fin {w : Word} {q : ℚ} (hd : decode w = .fin q)
    (hlow : -(2 ^ 63) ≤ q) (hhigh : q < 2 ^ 63) :
    ((∃ n : Int, q = n ∧ (intOfFloat (decode w)).toInt = n) ∨
      (|q| < 2 ^ 52 ∧ |(intOfFloat (decode w)).toInt| ≤ 2 ^ 52)) := by
  rw [hd]
  by_cases hlarge : 2 ^ 52 ≤ |q|
  · obtain ⟨n, rfl⟩ := decode_integral_of_large hd hlarge
    have hl : -(2 ^ 63) ≤ n := by exact_mod_cast hlow
    have hh : n < 2 ^ 63 := by exact_mod_cast hhigh
    refine .inl ⟨n, rfl, ?_⟩
    rw [intOfFloat, Datum.truncInt64_intCast hl hh, Int64.toInt_ofInt_of_le hl hh]
  · refine .inr ⟨not_le.mp hlarge, ?_⟩
    obtain ⟨hneg, hpos⟩ := abs_lt.mp (not_le.mp hlarge)
    have hcut : ∃ n : Int, Datum.truncInt64 (.fin q) = n ∧ |n| ≤ 2 ^ 52 := by
      refine ⟨_, rfl, ?_⟩
      have hfloor : -(2 ^ 52) ≤ ⌊q⌋ := Int.le_floor.mpr (by push_cast; exact hneg.le)
      have hfloor' : ⌊q⌋ ≤ 2 ^ 52 := by
        have h : ((⌊q⌋ : Int) : ℚ) ≤ (2 ^ 52 : Int) := by
          push_cast
          exact (Int.floor_le q).trans hpos.le
        exact_mod_cast h
      have hceil : -(2 ^ 52) ≤ ⌈q⌉ := by
        have h : ((-(2 ^ 52) : Int) : ℚ) ≤ (⌈q⌉ : Int) := by
          push_cast
          exact hneg.le.trans (Int.le_ceil q)
        exact_mod_cast h
      have hceil' : ⌈q⌉ ≤ 2 ^ 52 := Int.ceil_le.mpr (by push_cast; exact hpos.le)
      rw [Datum.truncInt64, abs_le]
      split <;> split <;> constructor <;> omega
    obtain ⟨n, hn, habs⟩ := hcut
    obtain ⟨hnlow, hnhigh⟩ := abs_le.mp habs
    rw [intOfFloat, hn, Int64.toInt_ofInt_of_le (by omega) (by omega)]
    exact habs

theorem lt_intOfFloat_iff {i : Int64} {w : Word} {q : ℚ} (hd : decode w = .fin q)
    (hfits : intFitsFloat i = false) (hlow : -(2 ^ 63) ≤ q) (hhigh : q < 2 ^ 63) :
    (i < intOfFloat (decode w) ↔ (i.toInt : ℚ) < q) ∧
      (i ≤ intOfFloat (decode w) ↔ (i.toInt : ℚ) ≤ q) := by
  rw [Int64.lt_iff_toInt_lt, Int64.le_iff_toInt_le]
  rcases intOfFloat_of_fin hd hlow hhigh with ⟨n, rfl, hn⟩ | ⟨hsmall, hcut⟩
  · rw [hn, Int.cast_lt, Int.cast_le]
    exact ⟨.rfl, .rfl⟩
  · have hbig : i.toInt < -(2 ^ 53) ∨ 2 ^ 53 < i.toInt := by
      have h := mt intFitsFloat_iff.mpr (Bool.eq_false_iff.mp hfits)
      omega
    obtain ⟨hqlow, hqhigh⟩ := abs_lt.mp hsmall
    obtain ⟨hclow, hchigh⟩ := abs_le.mp hcut
    rcases hbig with hneg | hpos
    · have hlt : (i.toInt : ℚ) < q := by
        have h : (i.toInt : ℚ) < ((-(2 ^ 53) : Int) : ℚ) := Int.cast_lt.mpr hneg
        push_cast at h
        linarith
      exact ⟨iff_of_true (by omega) hlt, iff_of_true (by omega) hlt.le⟩
    · have hlt : q < (i.toInt : ℚ) := by
        have h : ((2 ^ 53 : Int) : ℚ) < (i.toInt : ℚ) := Int.cast_lt.mpr hpos
        push_cast at h
        linarith
      exact ⟨iff_of_false (by omega) hlt.not_gt, iff_of_false (by omega) hlt.not_ge⟩

theorem toInt_bounds (i : Int64) :
    (-(2 ^ 63) : ℚ) ≤ (i.toInt : ℚ) ∧ (i.toInt : ℚ) < 2 ^ 63 :=
  ⟨by exact_mod_cast i.le_toInt, by exact_mod_cast i.toInt_lt⟩

theorem ltIntFloat_eq (i : Int64) (w : Word) :
    ltIntFloat i w = (Datum.fin i.toInt).lt (decode w) := by
  obtain ⟨hilow, hihigh⟩ := toInt_bounds i
  unfold ltIntFloat
  cases hfits : intFitsFloat i with
  | true =>
      simp only [Bool.not_true, Bool.false_eq_true, if_false, floatOfInt_of_fits hfits]
      split
      · rename_i hnan
        rw [hnan]
        rfl
      · rfl
  | false =>
      cases hd : decode w with
      | nan => rfl
      | inf s => cases s <;> rfl
      | fin q =>
          simp only [reduceCtorEq, if_false, Bool.not_false, if_true, Datum.le, Datum.lt,
            decide_eq_true_eq]
          split
          · rename_i hsup
            exact (decide_eq_true (hihigh.trans_le hsup)).symm
          · rename_i hsup
            split
            · rename_i hmin
              rw [← hd]
              exact decide_eq_decide.mpr
                (lt_intOfFloat_iff hd hfits hmin.le (not_le.mp hsup)).1
            · rename_i hmin
              exact (decide_eq_false ((not_lt.mp hmin).trans hilow).not_gt).symm

theorem leIntFloat_eq (i : Int64) (w : Word) :
    leIntFloat i w = (Datum.fin i.toInt).le (decode w) := by
  obtain ⟨hilow, hihigh⟩ := toInt_bounds i
  unfold leIntFloat
  cases hfits : intFitsFloat i with
  | true =>
      simp only [Bool.not_true, Bool.false_eq_true, if_false, floatOfInt_of_fits hfits]
      split
      · rename_i hnan
        rw [hnan]
        rfl
      · rfl
  | false =>
      cases hd : decode w with
      | nan => rfl
      | inf s => cases s <;> rfl
      | fin q =>
          simp only [reduceCtorEq, if_false, Bool.not_false, if_true, Datum.le,
            decide_eq_true_eq]
          split
          · rename_i hsup
            exact (decide_eq_true (hihigh.le.trans hsup)).symm
          · rename_i hsup
            split
            · rename_i hmin
              rw [← hd]
              exact decide_eq_decide.mpr
                (lt_intOfFloat_iff hd hfits hmin (not_le.mp hsup)).2
            · rename_i hmin
              exact (decide_eq_false ((not_le.mp hmin).trans_le hilow).not_ge).symm

namespace LuaNumber

theorem tvalue_inj {v w : LuaNumber} (h : v.tvalue = w.tvalue) : v = w := by
  cases v <;> cases w <;> cases h <;> rfl

theorem numberLt_eq (v w : LuaNumber) :
    numberLt v.tvalue w.tvalue = v.datum.lt w.datum := by
  cases v with
  | int i => cases w with
    | int j =>
        show decide (i < j) = decide ((i.toInt : ℚ) < (j.toInt : ℚ))
        rw [decide_eq_decide, Int.cast_lt]
        exact Int64.lt_iff_toInt_lt
    | float u => exact ltIntFloat_eq i u
  | float u => cases w with
    | int j =>
        show (if decode u = .nan then false else !leIntFloat j u) =
          (decode u).lt (.fin j.toInt)
        rw [leIntFloat_eq]
        rcases decode u with _ | ⟨_ | _⟩ | q <;>
          simp [Datum.lt, Datum.le, ← decide_not]
    | float u' => rfl

theorem numberLe_eq (v w : LuaNumber) :
    numberLe v.tvalue w.tvalue = v.datum.le w.datum := by
  cases v with
  | int i => cases w with
    | int j =>
        show decide (i ≤ j) = decide ((i.toInt : ℚ) ≤ (j.toInt : ℚ))
        rw [decide_eq_decide, Int.cast_le]
        exact Int64.le_iff_toInt_le
    | float u => exact leIntFloat_eq i u
  | float u => cases w with
    | int j =>
        show (if decode u = .nan then false else !ltIntFloat j u) =
          (decode u).le (.fin j.toInt)
        rw [ltIntFloat_eq]
        rcases decode u with _ | ⟨_ | _⟩ | q <;>
          simp [Datum.lt, Datum.le, ← decide_not]
    | float u' => rfl

theorem valuesEqual_eq (v w : LuaNumber) :
    valuesEqual v.tvalue w.tvalue = v.datum.eq w.datum := by
  have hcast (w : Word) (i : Int64) :
      (floatToInteger w == some i) = (decode w).eq (.fin i.toInt) := by
    rw [Bool.eq_iff_iff, beq_iff_eq, floatToInteger_eq_some, Datum.eq_fin]
  have hcomm (d d' : Datum) : d.eq d' = d'.eq d := by
    rw [Bool.eq_iff_iff, Datum.eq_iff_value, Datum.eq_iff_value]
    constructor <;> rintro ⟨x, hx, y, hy, rfl⟩ <;> exact ⟨_, hy, _, hx, rfl⟩
  cases v with
  | int i => cases w with
    | int j =>
        show (i == j) = decide ((i.toInt : ℚ) = (j.toInt : ℚ))
        rw [Bool.eq_iff_iff, beq_iff_eq, decide_eq_true_eq, Int.cast_inj]
        exact Int64.toInt_inj.symm
    | float u => exact (hcast u i).trans (hcomm _ _)
  | float u => cases w with
    | int j => exact hcast u j
    | float u' => rfl

theorem comparison_exact : Exact value? (fun v w => numberLt v.tvalue w.tvalue)
    (fun v w => numberLe v.tvalue w.tvalue) fun v w => valuesEqual v.tvalue w.tvalue where
  lt_iff v w := by
    rw [numberLt_eq]
    exact Datum.lt_iff
  le_iff v w := by
    rw [numberLe_eq]
    exact Datum.le_iff
  eq_iff v w := by
    rw [valuesEqual_eq]
    exact Datum.eq_iff_value

theorem isSome_value? (v : LuaNumber) : v.value?.isSome ↔ v.datum ≠ .nan := by
  unfold value?
  rcases v.datum with _ | ⟨_ | _⟩ | q <;> simp [Datum.value?]

/--
Comparison of numbers is exact: all three tests are false when a side is not a
number, and on the others `<` is a strict total order that `==` goes with.
-/
theorem numbers_compare_exactly :
    Exact value? (fun v w => numberLt v.tvalue w.tvalue)
        (fun v w => numberLe v.tvalue w.tvalue)
        (fun v w => valuesEqual v.tvalue w.tvalue) ∧
      StrictTotal (fun v : LuaNumber => v.datum ≠ .nan)
        (fun v w => numberLt v.tvalue w.tvalue)
        (fun v w => valuesEqual v.tvalue w.tvalue) := by
  have h := comparison_exact.strictTotal
  simp only [isSome_value?] at h
  exact ⟨comparison_exact, h⟩

theorem toNumber_le_of_le {v w : LuaNumber} (h : v.datum.le w.datum = true) :
    v.tvalue.toNumber.le w.tvalue.toNumber = true := by
  cases v with
  | int i => cases w with
    | int j =>
        have hij : (i.toInt : ℚ) ≤ (j.toInt : ℚ) := of_decide_eq_true h
        exact decide_eq_true (Int.cast_le.mpr (roundInt_mono (Int.cast_le.mp hij)))
    | float u =>
        change (Datum.fin i.toInt).le (decode u) = true at h
        show (floatOfInt i).le (decode u) = true
        cases hd : decode u with
        | nan => simp [hd, Datum.le] at h
        | inf s => simpa [hd, Datum.le, floatOfInt] using h
        | fin q =>
            rw [hd] at h
            exact decide_eq_true (roundInt_le_of_decode hd (of_decide_eq_true h))
  | float u => cases w with
    | int j =>
        change (decode u).le (.fin j.toInt) = true at h
        show (decode u).le (floatOfInt j) = true
        cases hd : decode u with
        | nan => simp [hd, Datum.le] at h
        | inf s => simpa [hd, Datum.le, floatOfInt] using h
        | fin q =>
            rw [hd] at h
            exact decide_eq_true (le_roundInt_of_decode hd (of_decide_eq_true h))
    | float u' => exact h

theorem toNumber_eq_nan {v : LuaNumber} : v.tvalue.toNumber = .nan ↔ v.datum = .nan := by
  cases v with
  | int i => simp [tvalue, TValue.toNumber, floatOfInt, datum]
  | float w => rfl

/-- The first is the smaller one, and both are the same float. -/
def RoundsTogether (v w : LuaNumber) : Prop :=
  v.datum.lt w.datum = true ∧ v.tvalue.toNumber = w.tvalue.toNumber

theorem toNumber_lt_iff (v w : LuaNumber) :
    v.tvalue.toNumber.lt w.tvalue.toNumber = numberLt v.tvalue w.tvalue ↔
      ¬ RoundsTogether v w := by
  rw [numberLt_eq, RoundsTogether]
  constructor
  · rintro h ⟨hlt, heq⟩
    rw [hlt, heq, Datum.lt_self] at h
    cases h
  · intro h
    rw [Bool.eq_iff_iff]
    constructor
    · intro hlt
      by_contra hnot
      rcases Datum.le_or_lt_or_nan w.datum v.datum with hle | hlt' | hnan
      · exact Datum.not_lt_of_le (toNumber_le_of_le hle) hlt
      · exact hnot hlt'
      · rw [← toNumber_eq_nan, ← toNumber_eq_nan (v := v)] at hnan
        rcases hnan with hnan | hnan
        · rw [hnan, Datum.lt_nan] at hlt
          cases hlt
        · rw [hnan, Datum.nan_lt] at hlt
          cases hlt
    · intro hlt
      by_contra hnot
      exact h ⟨hlt, Datum.eq_of_le_of_not_lt
        (toNumber_le_of_le (Datum.le_of_lt hlt)) hnot⟩

theorem toNumber_le_iff (v w : LuaNumber) :
    v.tvalue.toNumber.le w.tvalue.toNumber = numberLe v.tvalue w.tvalue ↔
      ¬ RoundsTogether w v := by
  rw [numberLe_eq, RoundsTogether]
  constructor
  · rintro h ⟨hlt, heq⟩
    have hnot : v.datum.le w.datum = false := by
      rw [Bool.eq_false_iff]
      exact fun hle => Datum.not_lt_of_le hle hlt
    rw [heq, hnot, Datum.le_self] at h
    · cases h
    · rw [Ne, toNumber_eq_nan]
      intro hnan
      rw [hnan, Datum.lt_nan] at hlt
      cases hlt
  · intro h
    rw [Bool.eq_iff_iff]
    constructor
    · intro hle
      rcases Datum.le_or_lt_or_nan v.datum w.datum with hle' | hlt | hnan
      · exact hle'
      · exact absurd ⟨hlt, (Datum.le_antisymm hle
          (toNumber_le_of_le (Datum.le_of_lt hlt))).symm⟩ h
      · rw [← toNumber_eq_nan, ← toNumber_eq_nan (v := w)] at hnan
        rcases hnan with hnan | hnan
        · rw [hnan, Datum.nan_le] at hle
          cases hle
        · rw [hnan, Datum.le_nan] at hle
          cases hle
    · exact toNumber_le_of_le

end LuaNumber

end Luatier
