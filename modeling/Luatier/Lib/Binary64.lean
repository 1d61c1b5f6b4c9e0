import Mathlib.Data.Rat.Floor
import Mathlib.Order.WithBot
import Mathlib.Tactic.Linarith
import Mathlib.Tactic.Positivity
import Mathlib.Tactic.FieldSimp

/-!
# Exact values of IEEE 754 binary64 words

A 64-bit word is read as a not-a-number, a signed infinity, or an exact
rational.  Every finite value is an integer number of units `2 ^ (-1074)`, so
magnitudes are compared through that natural number and no rounding occurs.
The conversion from a machine integer is the only rounding operation here.
-/

namespace Binary64

abbrev Word := UInt64

inductive Datum where
  | nan
  | inf (negative : Bool)
  | fin (value : ℚ)
  deriving DecidableEq, Repr

def signBit (w : Word) : Bool := decide (2 ^ 63 ≤ w.toNat)

def expField (w : Word) : Nat := w.toNat / 2 ^ 52 % 2 ^ 11

def fracField (w : Word) : Nat := w.toNat % 2 ^ 52

def units (w : Word) : Nat :=
  if expField w = 0 then fracField w
  else (2 ^ 52 + fracField w) * 2 ^ (expField w - 1)

def signedUnits (w : Word) : Int :=
  if signBit w then -(units w : Int) else units w

def unitExponent : Nat := 1074

def unitsPerOne : Nat := 2 ^ unitExponent

theorem unitsPerOne_pos : 0 < unitsPerOne := Nat.two_pow_pos _

def decode (w : Word) : Datum :=
  if expField w = 2047 then
    if fracField w = 0 then .inf (signBit w) else .nan
  else .fin ((signedUnits w : ℚ) / unitsPerOne)

namespace Datum

/-- IEEE equality: a not-a-number differs from everything, itself included. -/
def eq : Datum → Datum → Bool
  | .inf s, .inf s' => s == s'
  | .fin q, .fin q' => decide (q = q')
  | _, _ => false

def lt : Datum → Datum → Bool
  | .inf s, .inf s' => s && !s'
  | .inf s, .fin _ => s
  | .fin _, .inf s => !s
  | .fin q, .fin q' => decide (q < q')
  | _, _ => false

def le : Datum → Datum → Bool
  | .inf s, .inf s' => s || !s'
  | .inf s, .fin _ => s
  | .fin _, .inf s => !s
  | .fin q, .fin q' => decide (q ≤ q')
  | _, _ => false

def toInt? : Datum → Option Int
  | .fin q => if q.den = 1 then some q.num else none
  | _ => none

/--
Conversion to a signed 64-bit integer as the x86-64 instruction performs it:
truncation toward zero, and the least integer when the result does not fit.
-/
def truncInt64 : Datum → Int
  | .fin q =>
      let n := if 0 ≤ q then ⌊q⌋ else ⌈q⌉
      if -(2 ^ 63) ≤ n ∧ n < 2 ^ 63 then n else -(2 ^ 63)
  | _ => -(2 ^ 63)

theorem eq_fin {d : Datum} {q : ℚ} : d.eq (.fin q) = true ↔ d = .fin q := by
  cases d <;> simp [eq]

theorem eq_self_iff (d : Datum) : d.eq d = true ↔ d ≠ .nan := by
  cases d <;> simp [eq]

theorem eq_iff {d d' : Datum} : d.eq d' = true ↔ d = d' ∧ d ≠ .nan := by
  cases d <;> cases d' <;> simp [eq]

theorem truncInt64_intCast {n : Int} (low : -(2 ^ 63) ≤ n) (high : n < 2 ^ 63) :
    truncInt64 (.fin n) = n := by
  simp only [truncInt64, Int.floor_intCast, Int.ceil_intCast, ite_self]
  exact if_pos ⟨low, high⟩

end Datum

theorem fracField_lt (w : Word) : fracField w < 2 ^ 52 :=
  Nat.mod_lt _ (by decide)

theorem toNat_eq_fields (w : Word) :
    w.toNat = (if signBit w then 2 ^ 63 else 0) + expField w * 2 ^ 52 +
      fracField w := by
  have hw := w.toNat_lt
  simp only [signBit, expField, fracField, decide_eq_true_eq]
  split <;> omega

theorem word_ext {w w' : Word} (hs : signBit w = signBit w')
    (he : expField w = expField w') (hf : fracField w = fracField w') :
    w = w' := by
  rw [← UInt64.toNat_inj, toNat_eq_fields w, toNat_eq_fields w', hs, he, hf]

theorem units_lt_of_expField_lt {w w' : Word}
    (h : expField w < expField w') : units w < units w' := by
  have hf := fracField_lt w
  obtain ⟨k, hk⟩ : ∃ k, expField w' = k + 1 :=
    Nat.exists_eq_succ_of_ne_zero (by omega)
  have hbig : 2 ^ 52 * 2 ^ k ≤ units w' := by
    simp only [units, hk]
    rw [if_neg (by omega)]
    exact Nat.mul_le_mul_right _ (by omega)
  have hone : 1 ≤ 2 ^ k := Nat.one_le_two_pow
  have hsmall : units w < 2 ^ 52 * 2 ^ k := by
    unfold units
    split
    · omega
    · rename_i he
      obtain ⟨j, hj⟩ := Nat.exists_eq_succ_of_ne_zero he
      have hjk : 2 ^ (j + 1) ≤ 2 ^ k := Nat.pow_le_pow_right (by decide) (by omega)
      rw [pow_succ] at hjk
      rw [hj, Nat.succ_sub_one]
      have : (2 ^ 52 + fracField w) * 2 ^ j < (2 ^ 52 + 2 ^ 52) * 2 ^ j :=
        Nat.mul_lt_mul_of_pos_right (by omega) (by positivity)
      omega
  omega

theorem units_inj {w w' : Word} (h : units w = units w') :
    expField w = expField w' ∧ fracField w = fracField w' := by
  have he : expField w = expField w' := by
    rcases Nat.lt_trichotomy (expField w) (expField w') with hlt | heq | hgt
    · exact absurd h (Nat.ne_of_lt (units_lt_of_expField_lt hlt))
    · exact heq
    · exact absurd h (Nat.ne_of_gt (units_lt_of_expField_lt hgt))
  refine ⟨he, ?_⟩
  unfold units at h
  rw [he] at h
  split at h
  · exact h
  · have := Nat.eq_of_mul_eq_mul_right (by positivity) h
    omega

theorem decode_eq_nan {w : Word} (he : expField w = 2047)
    (hf : fracField w ≠ 0) : decode w = .nan := by
  rw [decode, if_pos he, if_neg hf]

theorem decode_eq_inf {w : Word} (he : expField w = 2047)
    (hf : fracField w = 0) : decode w = .inf (signBit w) := by
  rw [decode, if_pos he, if_pos hf]

theorem decode_eq_fin {w : Word} (he : expField w ≠ 2047) :
    decode w = .fin ((signedUnits w : ℚ) / unitsPerOne) := by
  rw [decode, if_neg he]

theorem decode_fin_eq_iff {w w' : Word} (he : expField w ≠ 2047)
    (he' : expField w' ≠ 2047) :
    decode w = decode w' ↔ signedUnits w = signedUnits w' := by
  have hp : (unitsPerOne : ℚ) ≠ 0 := by exact_mod_cast unitsPerOne_pos.ne'
  rw [decode_eq_fin he, decode_eq_fin he', Datum.fin.injEq, div_left_inj' hp]
  exact Int.cast_inj

theorem signedUnits_inj {w w' : Word} (h : signedUnits w = signedUnits w')
    (hzero : signedUnits w ≠ 0) : w = w' := by
  have hs : signBit w = signBit w' := by
    cases hs : signBit w <;> cases hs' : signBit w' <;>
      simp [signedUnits, hs, hs'] at h hzero ⊢ <;> omega
  have hu : units w = units w' := by
    cases hs' : signBit w' <;> simp [signedUnits, hs, hs'] at h <;> exact h
  exact word_ext hs (units_inj hu).1 (units_inj hu).2

/-- Apart from the two zeros and the not-a-numbers, equal values have equal words. -/
theorem decode_inj {w w' : Word} (h : decode w = decode w')
    (hnan : decode w ≠ .nan) (hzero : decode w ≠ .fin 0) : w = w' := by
  by_cases he : expField w = 2047
  · have hf : fracField w = 0 := by
      by_contra hf
      exact hnan (decode_eq_nan he hf)
    rw [decode_eq_inf he hf] at h
    by_cases he' : expField w' = 2047
    · by_cases hf' : fracField w' = 0
      · rw [decode_eq_inf he' hf'] at h
        exact word_ext (Datum.inf.inj h) (he.trans he'.symm) (hf.trans hf'.symm)
      · rw [decode_eq_nan he' hf'] at h
        contradiction
    · rw [decode_eq_fin he'] at h
      contradiction
  · by_cases he' : expField w' = 2047
    · rw [decode_eq_fin he] at h
      by_cases hf' : fracField w' = 0
      · rw [decode_eq_inf he' hf'] at h
        contradiction
      · rw [decode_eq_nan he' hf'] at h
        contradiction
    · refine signedUnits_inj ((decode_fin_eq_iff he he').mp h) ?_
      intro hu
      apply hzero
      rw [decode_eq_fin he, hu, Int.cast_zero, zero_div]

/-! ## Rounding a machine integer to the nearest value -/

def roundNat (m : Nat) : Nat :=
  if m < 2 ^ 53 then m
  else
    let k := m.log2 - 52
    let q := m / 2 ^ k
    let r := m % 2 ^ k
    let half := 2 ^ (k - 1)
    (if half < r ∨ (r = half ∧ q % 2 = 1) then q + 1 else q) * 2 ^ k

def roundInt (n : Int) : Int :=
  if n < 0 then -(roundNat n.natAbs : Int) else roundNat n.natAbs

theorem roundNat_of_scaled {c k : Nat} (low : 2 ^ 52 ≤ c) (high : c < 2 ^ 53) :
    roundNat (c * 2 ^ k) = c * 2 ^ k := by
  have hlog : (c * 2 ^ k).log2 = 52 + k := by
    have hpos : 0 < c * 2 ^ k := Nat.mul_pos (by omega) (Nat.two_pow_pos k)
    refine (Nat.log2_eq_iff hpos.ne').mpr ⟨?_, ?_⟩
    · rw [pow_add]
      exact Nat.mul_le_mul_right _ low
    · rw [show 52 + k + 1 = 53 + k by omega, pow_add]
      exact Nat.mul_lt_mul_of_pos_right high (Nat.two_pow_pos k)
  unfold roundNat
  split
  · rfl
  · have hk : (c * 2 ^ k).log2 - 52 = k := by omega
    simp only [hk, Nat.mul_mod_left, Nat.mul_div_cancel c (Nat.two_pow_pos k)]
    rw [if_neg]
    have := Nat.two_pow_pos (k - 1)
    omega

theorem units_of_large {w : Word} (hlarge : 2 ^ (52 + unitExponent) ≤ units w) :
    ∃ k, units w = (2 ^ 52 + fracField w) * 2 ^ k * unitsPerOne := by
  have hf := fracField_lt w
  have he : expField w ≠ 0 := by
    intro he
    have hone : 1 ≤ 2 ^ unitExponent := Nat.one_le_two_pow
    rw [units, if_pos he, pow_add] at hlarge
    have := Nat.le_mul_of_pos_right (2 ^ 52) hone
    omega
  rw [units, if_neg he] at hlarge ⊢
  have hexp : unitExponent ≤ expField w - 1 := by
    have hlt : 2 ^ (52 + unitExponent) < 2 ^ (53 + (expField w - 1)) := by
      refine lt_of_le_of_lt hlarge ?_
      rw [pow_add 2 53 (expField w - 1)]
      exact Nat.mul_lt_mul_of_pos_right (by omega) (Nat.two_pow_pos _)
    have := (Nat.pow_lt_pow_iff_right (by decide : 1 < 2)).mp hlt
    omega
  obtain ⟨k, hk⟩ := Nat.exists_eq_add_of_le' hexp
  refine ⟨k, ?_⟩
  rw [hk, pow_add, ← Nat.mul_assoc]
  rfl

theorem roundNat_of_units {w : Word} {m : Nat}
    (h : units w = m * unitsPerOne) : roundNat m = m := by
  by_cases hm : m < 2 ^ 53
  · rw [roundNat, if_pos hm]
  have hf := fracField_lt w
  have hlarge : 2 ^ (52 + unitExponent) ≤ units w := by
    rw [h, unitsPerOne, pow_add]
    exact Nat.mul_le_mul_right _ (by omega)
  obtain ⟨k, hk⟩ := units_of_large hlarge
  have hmk : m = (2 ^ 52 + fracField w) * 2 ^ k :=
    Nat.eq_of_mul_eq_mul_right unitsPerOne_pos (h.symm.trans hk)
  rw [hmk]
  exact roundNat_of_scaled (by omega) (by omega)

theorem expField_of_fin {w : Word} {q : ℚ} (hd : decode w = .fin q) :
    expField w ≠ 2047 := by
  intro he
  by_cases hf : fracField w = 0
  · rw [decode_eq_inf he hf] at hd
    contradiction
  · rw [decode_eq_nan he hf] at hd
    contradiction

theorem natAbs_signedUnits (w : Word) : (signedUnits w).natAbs = units w := by
  unfold signedUnits
  split <;> simp

theorem decode_integral_of_large {w : Word} {q : ℚ} (hd : decode w = .fin q)
    (hq : 2 ^ 52 ≤ |q|) : ∃ n : Int, q = n := by
  have hp : (0 : ℚ) < unitsPerOne := by exact_mod_cast unitsPerOne_pos
  rw [decode_eq_fin (expField_of_fin hd), Datum.fin.injEq] at hd
  have habs : |q| = (units w : ℚ) / unitsPerOne := by
    rw [← hd, abs_div, abs_of_pos hp, ← Int.cast_abs, Int.abs_eq_natAbs,
      natAbs_signedUnits, Int.cast_natCast]
  have hlarge : 2 ^ (52 + unitExponent) ≤ units w := by
    rw [habs, le_div_iff₀ hp] at hq
    have h : 2 ^ 52 * unitsPerOne ≤ units w := by exact_mod_cast hq
    rw [unitsPerOne] at h
    rw [pow_add]
    exact h
  obtain ⟨k, hk⟩ := units_of_large hlarge
  have hint : |q| = (((2 ^ 52 + fracField w) * 2 ^ k : Nat) : Int) := by
    rw [habs, hk, Nat.cast_mul _ unitsPerOne, Int.cast_natCast]
    exact mul_div_cancel_right₀ _ hp.ne'
  rcases abs_choice q with h | h
  · exact ⟨_, h.symm.trans hint⟩
  · refine ⟨-(((2 ^ 52 + fracField w) * 2 ^ k : Nat) : Int), ?_⟩
    rw [Int.cast_neg, ← hint, h, neg_neg]

theorem roundInt_of_small {n : Int} (hlow : -(2 ^ 53) ≤ n) (hhigh : n ≤ 2 ^ 53) :
    roundInt n = n := by
  have hround : roundNat n.natAbs = n.natAbs := by
    by_cases hlt : n.natAbs < 2 ^ 53
    · rw [roundNat, if_pos hlt]
    · rw [show n.natAbs = 2 ^ 52 * 2 ^ 1 by omega]
      exact roundNat_of_scaled le_rfl (by decide)
  simp only [roundInt, hround]
  split <;> omega

theorem roundInt_of_decode {w : Word} {n : Int}
    (h : decode w = .fin n) : roundInt n = n := by
  have hunits : signedUnits w = n * unitsPerOne := by
    have hp : (unitsPerOne : ℚ) ≠ 0 := by exact_mod_cast unitsPerOne_pos.ne'
    rw [decode_eq_fin (expField_of_fin h), Datum.fin.injEq, div_eq_iff hp] at h
    exact_mod_cast h
  have hround : roundNat n.natAbs = n.natAbs := by
    refine roundNat_of_units (w := w) ?_
    have := congrArg Int.natAbs hunits
    rw [Int.natAbs_mul, Int.natAbs_natCast] at this
    rw [← this, natAbs_signedUnits]
  simp only [roundInt, hround]
  split <;> omega

/-! ## Rounding keeps the order -/

theorem roundNat_of_large {m : Nat} (h : 2 ^ 53 ≤ m) :
    2 ^ m.log2 ≤ roundNat m ∧ roundNat m ≤ 2 ^ (m.log2 + 1) := by
  have hlog : 53 ≤ m.log2 := (Nat.le_log2 (by omega)).mpr h
  obtain ⟨k, hk⟩ : ∃ k, m.log2 = 52 + k := Nat.exists_eq_add_of_le (by omega)
  have hpow : 0 < 2 ^ k := Nat.two_pow_pos k
  have hlow : 2 ^ 52 ≤ m / 2 ^ k := by
    rw [Nat.le_div_iff_mul_le hpow, ← pow_add, ← hk]
    exact Nat.log2_self_le (by omega)
  have hhigh : m / 2 ^ k < 2 ^ 53 := by
    rw [Nat.div_lt_iff_lt_mul hpow, ← pow_add, show 53 + k = m.log2 + 1 by omega]
    exact Nat.lt_log2_self
  rw [roundNat, if_neg (by omega), hk, Nat.add_sub_cancel_left,
    show 52 + k + 1 = 53 + k by omega, pow_add, pow_add]
  constructor
  · refine Nat.mul_le_mul_right _ (hlow.trans ?_)
    split <;> omega
  · refine Nat.mul_le_mul_right _ ?_
    split <;> omega

theorem roundNat_mono {m m' : Nat} (h : m ≤ m') : roundNat m ≤ roundNat m' := by
  by_cases hm : m < 2 ^ 53
  · rw [roundNat, if_pos hm]
    by_cases hm' : m' < 2 ^ 53
    · rwa [roundNat, if_pos hm']
    · have hlog : 53 ≤ m'.log2 := (Nat.le_log2 (by omega)).mpr (by omega)
      have := (@roundNat_of_large m' (by omega)).1
      have : 2 ^ 53 ≤ 2 ^ m'.log2 := Nat.pow_le_pow_right (by decide) hlog
      omega
  · have hlog : m.log2 ≤ m'.log2 := by
      rw [Nat.le_log2 (by omega)]
      exact (Nat.log2_self_le (by omega)).trans h
    rcases hlog.lt_or_eq with hlt | heq
    · calc roundNat m ≤ 2 ^ (m.log2 + 1) := (roundNat_of_large (by omega)).2
        _ ≤ 2 ^ m'.log2 := Nat.pow_le_pow_right (by decide) hlt
        _ ≤ roundNat m' := (roundNat_of_large (by omega)).1
    · rw [roundNat, roundNat, if_neg hm, if_neg (by omega), ← heq]
      generalize m.log2 - 52 = k
      refine Nat.mul_le_mul_right _ ?_
      have hq : m / 2 ^ k ≤ m' / 2 ^ k := Nat.div_le_div_right h
      rcases hq.lt_or_eq with hlt | hqeq
      · split <;> split <;> omega
      · have hr : m % 2 ^ k ≤ m' % 2 ^ k := by
          have h₁ := Nat.div_add_mod m (2 ^ k)
          have h₂ := Nat.div_add_mod m' (2 ^ k)
          rw [hqeq] at h₁
          omega
        rw [hqeq]
        split <;> split <;> omega

theorem roundInt_mono {n n' : Int} (h : n ≤ n') : roundInt n ≤ roundInt n' := by
  unfold roundInt
  split
  · split
    · have := @roundNat_mono n'.natAbs n.natAbs (by omega)
      omega
    · omega
  · split
    · omega
    · have := @roundNat_mono n.natAbs n'.natAbs (by omega)
      omega

theorem roundInt_le_of_decode {w : Word} {q : ℚ} (hd : decode w = .fin q) {n : Int}
    (h : (n : ℚ) ≤ q) : (roundInt n : ℚ) ≤ q := by
  have hfloor : roundInt n ≤ roundInt ⌊q⌋ := roundInt_mono (Int.le_floor.mpr h)
  refine le_trans (Int.cast_le.mpr hfloor) ?_
  by_cases hlarge : 2 ^ 52 ≤ |q|
  · obtain ⟨m, rfl⟩ := decode_integral_of_large hd hlarge
    rw [Int.floor_intCast, roundInt_of_decode hd]
  · obtain ⟨hneg, hpos⟩ := abs_lt.mp (not_le.mp hlarge)
    rw [roundInt_of_small]
    · exact Int.floor_le q
    · refine Int.le_floor.mpr ?_
      push_cast
      linarith
    · have : (⌊q⌋ : ℚ) ≤ (2 ^ 53 : Int) := by
        push_cast
        linarith [Int.floor_le q]
      exact_mod_cast this

theorem le_roundInt_of_decode {w : Word} {q : ℚ} (hd : decode w = .fin q) {n : Int}
    (h : q ≤ (n : ℚ)) : q ≤ (roundInt n : ℚ) := by
  have hceil : roundInt ⌈q⌉ ≤ roundInt n := roundInt_mono (Int.ceil_le.mpr h)
  refine le_trans ?_ (Int.cast_le.mpr hceil)
  by_cases hlarge : 2 ^ 52 ≤ |q|
  · obtain ⟨m, rfl⟩ := decode_integral_of_large hd hlarge
    rw [Int.ceil_intCast, roundInt_of_decode hd]
  · obtain ⟨hneg, hpos⟩ := abs_lt.mp (not_le.mp hlarge)
    rw [roundInt_of_small]
    · exact Int.le_ceil q
    · have : ((-(2 ^ 53) : Int) : ℚ) ≤ (⌈q⌉ : Int) := by
        push_cast
        linarith [Int.le_ceil q]
      exact_mod_cast this
    · refine Int.ceil_le.mpr ?_
      push_cast
      linarith

/-! ## The order of the values -/

/-- The rationals with two infinities. -/
abbrev Extended := WithBot (WithTop ℚ)

namespace Datum

def value? : Datum → Option Extended
  | .nan => none
  | .inf true => some ⊥
  | .inf false => some (⊤ : WithTop ℚ)
  | .fin q => some ((q : WithTop ℚ) : Extended)

theorem coe_lt_top (q : ℚ) : ((q : WithTop ℚ) : Extended) < ⊤ :=
  WithBot.coe_lt_coe.mpr (WithTop.coe_lt_top q)

theorem lt_iff {d d' : Datum} :
    d.lt d' = true ↔ ∃ x ∈ d.value?, ∃ y ∈ d'.value?, x < y := by
  cases d with
  | nan => simp [lt, value?]
  | inf s => cases d' with
    | nan => simp [lt, value?]
    | inf s' => cases s <;> cases s' <;> simp [lt, value?]
    | fin q => cases s <;> simp [lt, value?]
  | fin q => cases d' with
    | nan => simp [lt, value?]
    | inf s' => cases s' <;> simp [lt, value?, coe_lt_top]
    | fin q' => simp [lt, value?]

theorem le_iff {d d' : Datum} :
    d.le d' = true ↔ ∃ x ∈ d.value?, ∃ y ∈ d'.value?, x ≤ y := by
  cases d with
  | nan => simp [le, value?]
  | inf s => cases d' with
    | nan => simp [le, value?]
    | inf s' => cases s <;> cases s' <;> simp [le, value?]
    | fin q => cases s <;> simp [le, value?]
  | fin q => cases d' with
    | nan => simp [le, value?]
    | inf s' => cases s' <;> simp [le, value?]
    | fin q' => simp [le, value?]

theorem value?_inj {d d' : Datum} (h : d.value? = d'.value?) : d = d' := by
  have htop (q : ℚ) : ((q : WithTop ℚ) : Extended) ≠ ⊤ := (coe_lt_top q).ne
  rcases d with _ | ⟨_ | _⟩ | q <;> rcases d' with _ | ⟨_ | _⟩ | q' <;>
    simp_all [value?, eq_comm]

theorem value?_isSome {d : Datum} : d ≠ .nan → ∃ x, d.value? = some x := by
  rcases d with _ | ⟨_ | _⟩ | q <;> simp [value?]

theorem eq_iff_value {d d' : Datum} :
    d.eq d' = true ↔ ∃ x ∈ d.value?, ∃ y ∈ d'.value?, x = y := by
  rw [eq_iff]
  constructor
  · rintro ⟨rfl, hnan⟩
    obtain ⟨x, hx⟩ := value?_isSome hnan
    exact ⟨x, hx, x, hx, rfl⟩
  · rintro ⟨x, hx, y, hy, rfl⟩
    refine ⟨value?_inj (hx.trans hy.symm), ?_⟩
    rintro rfl
    cases hx

theorem le_of_lt {d d' : Datum} (h : d.lt d' = true) : d.le d' = true := by
  obtain ⟨x, hx, y, hy, hlt⟩ := lt_iff.mp h
  exact le_iff.mpr ⟨x, hx, y, hy, hlt.le⟩

theorem not_lt_of_le {d d' : Datum} (h : d.le d' = true) : ¬ d'.lt d = true := by
  intro hlt
  obtain ⟨x, hx, y, hy, hxy⟩ := le_iff.mp h
  obtain ⟨y', hy', x', hx', hyx⟩ := lt_iff.mp hlt
  cases Option.mem_unique hx hx'
  cases Option.mem_unique hy hy'
  exact hxy.not_gt hyx

theorem le_antisymm {d d' : Datum} (h : d.le d' = true) (h' : d'.le d = true) :
    d = d' := by
  obtain ⟨x, hx, y, hy, hxy⟩ := le_iff.mp h
  obtain ⟨y', hy', x', hx', hyx⟩ := le_iff.mp h'
  cases Option.mem_unique hx hx'
  cases Option.mem_unique hy hy'
  cases hxy.antisymm hyx
  exact value?_inj (hx.trans hy.symm)

theorem le_or_lt_or_nan (d d' : Datum) :
    d.le d' = true ∨ d'.lt d = true ∨ d = .nan ∨ d' = .nan := by
  by_cases hd : d = .nan
  · exact .inr (.inr (.inl hd))
  · by_cases hd' : d' = .nan
    · exact .inr (.inr (.inr hd'))
    · obtain ⟨x, hx⟩ := value?_isSome hd
      obtain ⟨y, hy⟩ := value?_isSome hd'
      rcases le_or_gt x y with hle | hlt
      · exact .inl (le_iff.mpr ⟨x, hx, y, hy, hle⟩)
      · exact .inr (.inl (lt_iff.mpr ⟨y, hy, x, hx, hlt⟩))

theorem eq_of_le_of_not_lt {d d' : Datum} (h : d.le d' = true)
    (h' : ¬ d.lt d' = true) : d = d' := by
  rcases le_or_lt_or_nan d' d with hle | hlt | hnan | hnan
  · exact le_antisymm h hle
  · exact absurd hlt h'
  · rw [hnan] at h
    cases d <;> cases h
  · rw [hnan] at h
    cases d' <;> cases h

theorem lt_self (d : Datum) : d.lt d = false := by
  rcases d with _ | ⟨_ | _⟩ | q <;> simp [lt]

theorem le_self {d : Datum} (h : d ≠ .nan) : d.le d = true := by
  rcases d with _ | ⟨_ | _⟩ | q <;> simp_all [le]

theorem lt_nan (d : Datum) : d.lt .nan = false := by cases d <;> rfl

theorem nan_lt (d : Datum) : lt .nan d = false := by cases d <;> rfl

theorem le_nan (d : Datum) : d.le .nan = false := by cases d <;> rfl

theorem nan_le (d : Datum) : le .nan d = false := by cases d <;> rfl

end Datum

end Binary64
