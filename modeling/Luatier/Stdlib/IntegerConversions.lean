import Luatier.Runtime.TableInvariant
import Luatier.Stdlib.Next
import Luatier.Stdlib.TableLib
import Luatier.Vm.Coercion
import Luatier.Vm.ForLoop

/-!
# Floats where integers are required

Every such place has its own test of the range and of the fraction, and then casts.
A cast is undefined unless the value fits.
-/

namespace Luatier

open Binary64

/-- What becomes of a float. -/
inductive Conversion where
  | rejected
  | integer (n : Int64)
  | undefined
  deriving DecidableEq, Repr

namespace Conversion

def ofOption : Option Int64 → Conversion
  | none => .rejected
  | some n => .integer n

/-! ## The code -/

/-- `static_cast<int64_t>(d)` -/
def castInt64 : Datum → Conversion
  | .fin q =>
      let n := if 0 ≤ q then ⌊q⌋ else ⌈q⌉
      if -(2 ^ 63) ≤ n ∧ n < 2 ^ 63 then .integer (Int64.ofInt n) else .undefined
  | _ => .undefined

/-- `static_cast<double>(n)` -/
def ofInt (n : Int) : Datum := .fin (roundInt n)

def minFloat : Datum := ofInt (-(2 ^ 63))

def maxFloat : Datum := ofInt (2 ^ 63 - 1)

def kSup : Datum := .fin (2 ^ 63)

def floor (d : Datum) : Datum := IntegerMode.floor.round d

def floatToInteger (d : Datum) : Conversion :=
  if minFloat.le d && d.lt kSup && (floor d).eq d then castInt64 d else .rejected

def toInteger (d : Datum) : Conversion :=
  if minFloat.le d && d.lt kSup && (floor d).eq d then castInt64 d else .rejected

def checkInt (d : Datum) : Conversion :=
  if (floor d).eq d && minFloat.le d && d.le maxFloat then castInt64 d else .rejected

def auxGetn (d : Datum) : Conversion :=
  if d.eq (floor d) && minFloat.le d && d.le maxFloat then castInt64 d else .rejected

def formatInteger (d : Datum) : Conversion :=
  if !(floor d).eq d || d.lt minFloat || maxFloat.lt d then .rejected else castInt64 d

def keyAsNextIndex (d : Datum) : Conversion :=
  if (Datum.fin 0).le d && d.eq (floor d) && d.le maxFloat then castInt64 d else .rejected

def keyAsInteger (d : Datum) : Conversion :=
  if !d.eq d then .rejected
  else if minFloat.le d && d.le maxFloat && d.eq (floor d) then
    match castInt64 d with
    | .integer out => if (ofInt out.toInt).eq d then .integer out else .rejected
    | c => c
  else .rejected

def tointegerMode (mode : IntegerMode) (d : Datum) : Conversion :=
  let d := mode.round d
  if !d.eq d then .rejected
  else if d.lt minFloat || maxFloat.lt d then .rejected
  else
    match castInt64 d with
    | .integer i =>
        if mode = .exact ∧ (ofInt i.toInt).eq d = false then .rejected else .integer i
    | c => c

def forlimitInteger (step : Int64) (d : Datum) : Conversion :=
  tointegerMode (if step < 0 then .ceil else .floor) d

/-! ## The integer of a float -/

/-- An integral value that is not below `-2 ^ 63` and is below `2 ^ 63`. -/
def exactInt64 : Datum → Option Int64
  | .fin q =>
      if q = ⌊q⌋ ∧ -(2 ^ 63) ≤ q ∧ q < 2 ^ 63 then some (Int64.ofInt ⌊q⌋) else none
  | _ => none

variable {d : Datum} {q : ℚ} {n : Int64}

theorem bounds : minFloat = .fin (-(2 ^ 63)) ∧ maxFloat = .fin (2 ^ 63) := by
  decide

theorem exactInt64_isSome : (exactInt64 (.fin q)).isSome = true ↔
    q = ⌊q⌋ ∧ -(2 ^ 63) ≤ q ∧ q < 2 ^ 63 := by
  simp only [exactInt64, Option.isSome_ite]

theorem exactInt64_eq_some : exactInt64 d = some n ↔ d = .fin n.toInt := by
  have hlow : -(2 ^ 63) ≤ n.toInt := n.le_toInt
  have hhigh : n.toInt < 2 ^ 63 := n.toInt_lt
  cases d with
  | nan => simp [exactInt64]
  | inf s => simp [exactInt64]
  | fin q =>
      simp only [exactInt64, Option.ite_none_right_eq_some, Option.some.injEq, Datum.fin.injEq]
      constructor
      · rintro ⟨⟨hfloor, hql, hqh⟩, rfl⟩
        rw [hfloor] at hql hqh
        have hfl : -(2 ^ 63) ≤ ⌊q⌋ := by exact_mod_cast hql
        have hfh : ⌊q⌋ < 2 ^ 63 := by exact_mod_cast hqh
        rw [Int64.toInt_ofInt_of_le hfl (by omega)]
        exact hfloor
      · rintro rfl
        exact ⟨⟨by simp, by exact_mod_cast hlow, by exact_mod_cast hhigh⟩, by simp⟩

theorem castInt64_of_exact (h : exactInt64 d = some n) : castInt64 d = .integer n := by
  have hlow : -(2 ^ 63) ≤ n.toInt := n.le_toInt
  have hhigh : n.toInt < 2 ^ 63 := n.toInt_lt
  rw [exactInt64_eq_some.mp h, castInt64]
  simp only [Int.floor_intCast, Int.ceil_intCast, ite_self]
  rw [if_pos ⟨hlow, hhigh⟩, Int64.ofInt_toInt]

theorem guarded_eq {accepted : Bool} (h : accepted = (exactInt64 d).isSome) :
    (if accepted then castInt64 d else .rejected) = ofOption (exactInt64 d) := by
  cases hd : exactInt64 d with
  | none => simp [h, hd, ofOption]
  | some n => simp [h, hd, castInt64_of_exact hd, ofOption]

/-! ## Each of the places -/

theorem floatToInteger_eq (d : Datum) : floatToInteger d = ofOption (exactInt64 d) := by
  apply guarded_eq
  rw [bounds.1, kSup]
  cases d with
  | nan => rfl
  | inf s => cases s <;> rfl
  | fin q =>
      rw [Bool.eq_iff_iff, exactInt64_isSome]
      simp only [Datum.le, Datum.lt, Datum.eq, floor, IntegerMode.round, Bool.and_eq_true,
        decide_eq_true_eq]
      constructor
      · rintro ⟨⟨hlow, hhigh⟩, hfloor⟩
        exact ⟨hfloor.symm, hlow, hhigh⟩
      · rintro ⟨hfloor, hlow, hhigh⟩
        exact ⟨⟨hlow, hhigh⟩, hfloor.symm⟩

theorem eq_comm_floor (d : Datum) : (floor d).eq d = d.eq (floor d) := by
  rw [Bool.eq_iff_iff, Datum.eq_iff, Datum.eq_iff]
  constructor
  · rintro ⟨heq, hne⟩
    exact ⟨heq.symm, heq ▸ hne⟩
  · rintro ⟨heq, hne⟩
    exact ⟨heq.symm, heq ▸ hne⟩

theorem lt_fin (q q' : ℚ) : (Datum.fin q).lt (.fin q') = !(Datum.fin q').le (.fin q) := by
  simp only [Datum.lt, Datum.le, ← not_le, decide_not]

section Bounded

variable (h : d ≠ .fin (2 ^ 63))

include h

theorem inclusive_eq : (d.eq (floor d) && minFloat.le d && d.le maxFloat) =
    (exactInt64 d).isSome := by
  rw [bounds.1, bounds.2]
  cases d with
  | nan => rfl
  | inf s => cases s <;> rfl
  | fin q =>
      have hne : q ≠ 2 ^ 63 := fun hq => h (by rw [hq])
      rw [Bool.eq_iff_iff, exactInt64_isSome]
      simp only [Datum.le, Datum.eq, floor, IntegerMode.round, Bool.and_eq_true, decide_eq_true_eq]
      constructor
      · rintro ⟨⟨hfloor, hlow⟩, hhigh⟩
        exact ⟨hfloor, hlow, lt_of_le_of_ne hhigh hne⟩
      · rintro ⟨hfloor, hlow, hhigh⟩
        exact ⟨⟨hfloor, hlow⟩, hhigh.le⟩

theorem auxGetn_eq : auxGetn d = ofOption (exactInt64 d) :=
  guarded_eq (inclusive_eq h)

theorem checkInt_eq : checkInt d = ofOption (exactInt64 d) := by
  apply guarded_eq
  rw [eq_comm_floor]
  exact inclusive_eq h

theorem formatInteger_eq : formatInteger d = ofOption (exactInt64 d) := by
  rw [← checkInt_eq h, formatInteger, checkInt, bounds.1, bounds.2]
  cases d with
  | nan => rfl
  | inf s => cases s <;> rfl
  | fin q =>
      rw [lt_fin, lt_fin]
      cases (floor (.fin q)).eq (.fin q) <;> cases (Datum.fin (-(2 ^ 63))).le (.fin q) <;>
        cases (Datum.fin q).le (.fin (2 ^ 63)) <;> rfl

theorem keyAsNextIndex_eq : keyAsNextIndex d =
    if d.lt (.fin 0) then .rejected else ofOption (exactInt64 d) := by
  cases hneg : d.lt (.fin 0) with
  | true =>
      have hle : (Datum.fin 0).le d = false := by
        cases d with
        | nan => rfl
        | inf s => cases s <;> simp_all [Datum.lt, Datum.le]
        | fin q => simpa [Datum.lt, Datum.le] using hneg
      simp [keyAsNextIndex, hle]
  | false =>
      apply guarded_eq
      rw [← inclusive_eq h, bounds.1, bounds.2]
      cases d with
      | nan => rfl
      | inf s => cases s <;> rfl
      | fin q =>
          have hpos : 0 ≤ q := by simpa [Datum.lt] using hneg
          have hlow : -(2 ^ 63) ≤ q := by linarith [show (0 : ℚ) ≤ 2 ^ 63 by positivity]
          simp [Datum.le, hpos, hlow]

end Bounded

section Words

variable {w : Word}

theorem keyAsInteger_eq (h : decode w ≠ .fin (2 ^ 63)) :
    keyAsInteger (decode w) = ofOption (exactInt64 (decode w)) := by
  have htest : (minFloat.le (decode w) && (decode w).le maxFloat &&
      (decode w).eq (floor (decode w))) = (exactInt64 (decode w)).isSome := by
    rw [← inclusive_eq h]
    cases minFloat.le (decode w) <;> cases (decode w).le maxFloat <;>
      cases (decode w).eq (floor (decode w)) <;> rfl
  rw [keyAsInteger, htest]
  cases hd : exactInt64 (decode w) with
  | none => simp [ofOption]
  | some n =>
      have hvalue := exactInt64_eq_some.mp hd
      have hback : (ofInt n.toInt).eq (decode w) = true := by
        rw [ofInt, roundInt_of_decode hvalue, hvalue]
        exact Datum.eq_fin.mpr rfl
      have hself : (decode w).eq (decode w) = true := (Datum.eq_self_iff _).mpr (by simp [hvalue])
      simp [castInt64_of_exact hd, hback, hself, ofOption]

/-- No float just above the greatest integer rounds to it: large floats are integral. -/
theorem round_ne (h : decode w ≠ .fin (2 ^ 63)) (step : Int64) :
    (ForLoop.mode step).round (decode w) ≠ .fin (2 ^ 63) := by
  cases hd : decode w with
  | nan => unfold ForLoop.mode; split <;> simp [IntegerMode.round]
  | inf s => unfold ForLoop.mode; split <;> simp [IntegerMode.round]
  | fin q =>
      rw [ForLoop.mode_round_fin]
      intro hround
      have hbound : ForLoop.bound step q = 2 ^ 63 := by
        have := Datum.fin.inj hround
        exact_mod_cast this
      have hlarge : (2 : ℚ) ^ 52 ≤ |q| := by
        have hnear : ((ForLoop.bound step q : Int) : ℚ) - 1 ≤ q := by
          unfold ForLoop.bound
          split
          · exact (sub_lt_iff_lt_add.mpr (Int.ceil_lt_add_one q)).le
          · exact (sub_le_self _ zero_le_one).trans (Int.floor_le q)
        rw [hbound] at hnear
        refine le_trans ?_ (hnear.trans (le_abs_self q))
        norm_num
      obtain ⟨n, rfl⟩ := decode_integral_of_large hd hlarge
      rw [ForLoop.bound, Int.ceil_intCast, Int.floor_intCast, ite_self] at hbound
      rw [hd, hbound] at h
      exact h (by norm_num)

theorem round_of_eq_self (step : Int64) (d : Datum)
    (h : ((ForLoop.mode step).round d).eq ((ForLoop.mode step).round d) = true) :
    (floor ((ForLoop.mode step).round d)).eq ((ForLoop.mode step).round d) = true := by
  cases d with
  | fin q =>
      rw [ForLoop.mode_round_fin]
      simp [floor, IntegerMode.round, Datum.eq]
  | nan =>
      unfold ForLoop.mode at h ⊢
      split <;> simp_all [IntegerMode.round, Datum.eq]
  | inf s =>
      unfold ForLoop.mode
      split <;> simp [floor, IntegerMode.round, Datum.eq]

theorem forlimitInteger_eq (h : decode w ≠ .fin (2 ^ 63)) (step : Int64) :
    forlimitInteger step (decode w) =
      ofOption (exactInt64 ((ForLoop.mode step).round (decode w))) := by
  have hne := round_ne h step
  have hwhole := round_of_eq_self step (decode w)
  have hmode : forlimitInteger step (decode w) =
      tointegerMode (ForLoop.mode step) (decode w) := rfl
  rw [hmode, tointegerMode]
  generalize (ForLoop.mode step).round (decode w) = d at hne hwhole ⊢
  have hcast : (match castInt64 d with
      | .integer i => if ForLoop.mode step = .exact ∧ (ofInt i.toInt).eq d = false then
          .rejected else .integer i
      | c => c) = castInt64 d := by
    cases castInt64 d <;> simp [ForLoop.mode_ne_exact]
  have hformat := formatInteger_eq hne
  rw [formatInteger] at hformat
  simp only [hcast]
  cases hself : d.eq d with
  | false =>
      have hnan : d = .nan := by
        by_contra hnan
        rw [(Datum.eq_self_iff d).mpr hnan] at hself
        cases hself
      simp [hnan, exactInt64, ofOption]
  | true => simpa [hwhole hself] using hformat

/-! ## The conversions of the library and of the machine -/

theorem floatToInteger_word (w : Word) : Luatier.floatToInteger w = exactInt64 (decode w) := by
  apply Option.ext
  intro n
  rw [Luatier.floatToInteger_eq_some, exactInt64_eq_some]

theorem truncInt64_of_exact {d : Datum} {n : Int64} (h : exactInt64 d = some n) :
    Int64.ofInt d.truncInt64 = n := by
  rw [exactInt64_eq_some.mp h, Datum.truncInt64_intCast n.le_toInt n.toInt_lt, Int64.ofInt_toInt]

theorem truncated_eq {test : ℚ → Prop} [DecidablePred test] {d : Datum} :
    (∀ q, d = .fin q → (test q ↔ (exactInt64 d).isSome = true)) →
    (match d with
      | .fin q => if test q then some (Int64.ofInt (Datum.truncInt64 (.fin q))) else none
      | _ => none) = exactInt64 d := by
  intro htest
  cases d with
  | nan => rfl
  | inf s => rfl
  | fin q =>
      have hq := htest q rfl
      cases hd : exactInt64 (.fin q) with
      | none =>
          rw [hd] at hq
          exact if_neg fun h => absurd (hq.mp h) (by simp)
      | some n =>
          rw [hd] at hq
          rw [← truncInt64_of_exact hd]
          exact if_pos (hq.mpr rfl)

theorem floatToInt64?_eq (h : decode w ≠ .fin (2 ^ 63)) :
    TableLib.floatToInt64? w = exactInt64 (decode w) := by
  apply truncated_eq
  intro q hq
  have hmin : ((roundInt (-(2 ^ 63)) : Int) : ℚ) = -(2 ^ 63) := Datum.fin.inj bounds.1
  have hmax : ((roundInt (2 ^ 63 - 1) : Int) : ℚ) = 2 ^ 63 := Datum.fin.inj bounds.2
  have hne : q ≠ 2 ^ 63 := fun heq => h (by rw [hq, heq])
  rw [hq, exactInt64_isSome, hmin, hmax, le_iff_lt_or_eq (a := q) (b := 2 ^ 63)]
  simp only [hne, or_false]

theorem keyAsNextIndex_word (h : decode w ≠ .fin (2 ^ 63)) :
    Table.keyAsNextIndex (.number w) =
      if (decode w).lt (.fin 0) then none else exactInt64 (decode w) := by
  have hmax : ((roundInt (2 ^ 63 - 1) : Int) : ℚ) = 2 ^ 63 := Datum.fin.inj bounds.2
  cases hneg : (decode w).lt (.fin 0) with
  | true =>
      rw [Table.keyAsNextIndex]
      cases hd : decode w with
      | nan => rfl
      | inf s => rfl
      | fin q =>
          have hq : q < 0 := by simpa [hd, Datum.lt] using hneg
          exact if_neg fun htest => absurd htest.1 (not_le.mpr hq)
  | false =>
      apply truncated_eq
      intro q hq
      have hpos : 0 ≤ q := by simpa [hq, Datum.lt] using hneg
      have hlow : -(2 ^ 63) ≤ q := by linarith [show (0 : ℚ) ≤ 2 ^ 63 by positivity]
      have hne : q ≠ 2 ^ 63 := fun heq => h (by rw [hq, heq])
      rw [hq, exactInt64_isSome, hmax, le_iff_lt_or_eq (a := q) (b := 2 ^ 63)]
      simp only [hne, or_false, hpos, hlow, true_and]

theorem floatMode_word (num : Numeric) (h : decode w ≠ .fin (2 ^ 63)) (step : Int64) :
    num.floatMode (ForLoop.mode step) w =
      exactInt64 ((ForLoop.mode step).round (decode w)) := by
  have hne := round_ne h step
  cases hd : decode w with
  | fin q =>
      rw [hd, ForLoop.mode_round_fin] at hne
      have htop : ForLoop.bound step q ≠ 2 ^ 63 := fun heq => hne (by rw [heq]; norm_num)
      rw [ForLoop.floatMode_fin hd, ForLoop.mode_round_fin, exactInt64, Int.floor_intCast,
        if_neg htop]
      have hlow : -(2 ^ 63) ≤ ((ForLoop.bound step q : Int) : ℚ) ↔
          -(2 ^ 63) ≤ ForLoop.bound step q := by exact_mod_cast Iff.rfl
      have hhigh : ((ForLoop.bound step q : Int) : ℚ) < 2 ^ 63 ↔
          ForLoop.bound step q < 2 ^ 63 := by exact_mod_cast Iff.rfl
      simp only [hlow, hhigh, true_and]
      by_cases hout : ForLoop.bound step q < -(2 ^ 63) ∨ 2 ^ 63 < ForLoop.bound step q
      · rw [if_pos hout, if_neg (by omega)]
      · rw [if_neg hout, if_pos (by omega)]
  | nan =>
      rw [ForLoop.floatMode_of_not_fin (by simp [hd])]
      unfold ForLoop.mode
      split <;> rfl
  | inf s =>
      rw [ForLoop.floatMode_of_not_fin (by simp [hd])]
      unfold ForLoop.mode
      split <;> rfl

end Words

/--
For every float but `2 ^ 63` all conversions agree with `float_to_integer` and no
cast is undefined, except that a negative float is no index for `next` and that the
limit of a loop is first rounded in the direction of the step.
-/
theorem conversions_agree (w : Word) (h : decode w ≠ .fin (2 ^ 63)) (step : Int64) :
    let d := decode w
    (∀ d, floatToInteger d = ofOption (exactInt64 d)) ∧
      toInteger d = floatToInteger d ∧
      checkInt d = floatToInteger d ∧
      auxGetn d = floatToInteger d ∧
      formatInteger d = floatToInteger d ∧
      keyAsInteger d = floatToInteger d ∧
      keyAsNextIndex d = (if d.lt (.fin 0) then .rejected else floatToInteger d) ∧
      forlimitInteger step d = floatToInteger ((ForLoop.mode step).round d) ∧
      Luatier.floatToInteger w = exactInt64 d ∧
      TableLib.floatToInt64? w = exactInt64 d ∧
      Table.keyAsNextIndex (.number w) =
        (if d.lt (.fin 0) then none else exactInt64 d) ∧
      ∀ num : Numeric, num.floatMode (ForLoop.mode step) w =
        exactInt64 ((ForLoop.mode step).round d) := by
  intro d
  refine ⟨floatToInteger_eq, rfl, ?_⟩
  rw [floatToInteger_eq, floatToInteger_eq]
  exact ⟨checkInt_eq h, auxGetn_eq h, formatInteger_eq h, keyAsInteger_eq h,
    keyAsNextIndex_eq h, forlimitInteger_eq h step, floatToInteger_word w,
    floatToInt64?_eq h, keyAsNextIndex_word h, fun num => floatMode_word num h step⟩

/-- The greatest float below `2 ^ 63`. -/
theorem conversions_agree_below :
    checkInt (decode 0x43DFFFFFFFFFFFFF) = .integer 9223372036854774784 := by
  have hagree := conversions_agree 0x43DFFFFFFFFFFFFF (by decide +kernel) 1
  rw [hagree.2.2.1]
  decide +kernel

/-- A negative index, and a limit with a fraction. -/
theorem conversions_differ :
    floatToInteger (decode 0xBFF0000000000000) = .integer (-1) ∧
      keyAsNextIndex (decode 0xBFF0000000000000) = .rejected ∧
      floatToInteger (decode 0x4004000000000000) = .rejected ∧
      forlimitInteger 1 (decode 0x4004000000000000) = .integer 2 := by
  decide +kernel

end Conversion

end Luatier
