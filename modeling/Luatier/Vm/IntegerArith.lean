import Mathlib.Tactic.Ring
import Luatier.Vm.Opcodes

/-!
# Integer arithmetic

The operators on two integers.  What the source computes in `int64_t` is checked here:
an operation whose result does not fit is undefined.
-/

namespace Luatier

namespace IntegerArith

inductive Failure where
  | undefined
  | raised (text : String)
  deriving DecidableEq, Repr

abbrev Checked := Except Failure

def int64 (r : Int) : Checked Int64 :=
  if -(2 ^ 63) ≤ r ∧ r < 2 ^ 63 then .ok (Int64.ofInt r) else .error .undefined

def neg (x : Int64) : Checked Int64 := int64 (-x.toInt)

/-- Division truncates; a quotient that does not fit leaves the remainder undefined too. -/
def quot (m n : Int64) : Checked Int64 :=
  if n = 0 then .error .undefined else int64 (m.toInt.tdiv n.toInt)

def rem (m n : Int64) : Checked Int64 := do
  let _ ← quot m n
  int64 (m.toInt.tmod n.toInt)

def intopAdd (x y : Int64) : Int64 := (x.toUInt64 + y.toUInt64).toInt64

def intopSub (x y : Int64) : Int64 := (x.toUInt64 - y.toUInt64).toInt64

def intopMul (x y : Int64) : Int64 := (x.toUInt64 * y.toUInt64).toInt64

def intopUnm (x : Int64) : Int64 := (0 - x.toUInt64).toInt64

def shiftl (v disp : Int64) : Checked Int64 :=
  if disp < 0 then
    if disp ≤ -64 then .ok 0
    else do
      let d ← neg disp
      return (v.toUInt64 >>> d.toUInt64).toInt64
  else if 64 ≤ disp then .ok 0
  else .ok (v.toUInt64 <<< disp.toUInt64).toInt64

def intIdivMod (op : OpCode) (m n : Int64) : Checked Int64 :=
  if n.toUInt64 + 1 ≤ 1 then
    if n = 0 then
      if op = .idiv then .error (.raised "attempt to divide by zero")
      else .error (.raised "attempt to perform 'n%0'")
    else if op = .idiv then .ok (intopUnm m)
    else .ok 0
  else if op = .idiv then do
    let q ← quot m n
    if (m ^^^ n) < 0 then
      let r ← rem m n
      if r ≠ 0 then int64 (q.toInt - 1) else return q
    else return q
  else do
    let r ← rem m n
    if r ≠ 0 ∧ (m ^^^ n) < 0 then int64 (r.toInt + n.toInt) else return r

def bitwiseRaw (op : OpCode) (x y : Int64) : Checked Int64 :=
  match op with
  | .band => .ok (x &&& y)
  | .bor => .ok (x ||| y)
  | .bxor => .ok (x ^^^ y)
  | .shl => shiftl x y
  | .shr => do shiftl x (← neg y)
  | _ => .error (.raised "bad bitwise")

def integerPath (op : OpCode) (x y : Int64) : Option (Checked Int64) :=
  match op with
  | .add => some (.ok (intopAdd x y))
  | .sub => some (.ok (intopSub x y))
  | .mul => some (.ok (intopMul x y))
  | .idiv | .mod => some (intIdivMod op x y)
  | .band | .bor | .bxor | .shl | .shr => some (bitwiseRaw op x y)
  | .unm => some (.ok (intopUnm x))
  | .bnot => some (.ok (~~~x))
  | _ => none

/-! ## The arithmetic that is meant -/

/-- A logical shift to the left by any displacement, a negative one to the right. -/
def shifted (v : Int64) (disp : Int) : Int64 :=
  Int64.ofInt (v.toUInt64.toNat * 2 ^ disp.toNat / 2 ^ (-disp).toNat)

/-- Floored division: the remainder is none or has the sign of the divisor. -/
structure Floored (m n q r : Int64) : Prop where
  dividend : q * n + r = m
  floor : q = Int64.ofInt (m.toInt.fdiv n.toInt)
  sign : r = 0 ∨ (r < 0 ↔ n < 0)
  small : r.toInt.natAbs < n.toInt.natAbs

/-- What is meant by an operator on two integers. -/
def Meets (op : OpCode) (x y : Int64) (out : Checked Int64) : Prop :=
  match op with
  | .add => out = .ok (Int64.ofInt (x.toInt + y.toInt))
  | .sub => out = .ok (Int64.ofInt (x.toInt - y.toInt))
  | .mul => out = .ok (Int64.ofInt (x.toInt * y.toInt))
  | .unm => out = .ok (Int64.ofInt (-x.toInt))
  | .band => out = .ok (Int64.ofBitVec (x.toBitVec &&& y.toBitVec))
  | .bor => out = .ok (Int64.ofBitVec (x.toBitVec ||| y.toBitVec))
  | .bxor => out = .ok (Int64.ofBitVec (x.toBitVec ^^^ y.toBitVec))
  | .bnot => out = .ok (Int64.ofBitVec (~~~x.toBitVec))
  | .shl => out = .ok (shifted x y.toInt)
  | .shr => out = .ok (shifted x (-y.toInt))
  | .idiv =>
      if y = 0 then ∃ text, out = .error (.raised text)
      else ∃ q r, out = .ok q ∧ Floored x y q r
  | .mod =>
      if y = 0 then ∃ text, out = .error (.raised text)
      else ∃ q r, out = .ok r ∧ Floored x y q r
  | _ => True

/-! ## Sums and products -/

theorem intopAdd_eq (x y : Int64) : intopAdd x y = Int64.ofInt (x.toInt + y.toInt) := by
  rw [Int64.ofInt_add, Int64.ofInt_toInt, Int64.ofInt_toInt]
  rfl

theorem intopSub_eq (x y : Int64) : intopSub x y = Int64.ofInt (x.toInt - y.toInt) := by
  rw [Int64.ofInt_sub, Int64.ofInt_toInt, Int64.ofInt_toInt]
  rfl

theorem intopMul_eq (x y : Int64) : intopMul x y = Int64.ofInt (x.toInt * y.toInt) := by
  rw [Int64.ofInt_mul, Int64.ofInt_toInt, Int64.ofInt_toInt]
  rfl

theorem intopUnm_eq (x : Int64) : intopUnm x = Int64.ofInt (-x.toInt) := by
  rw [Int64.ofInt_neg, Int64.ofInt_toInt]
  exact Int64.toBitVec_inj.mp (by simp [intopUnm])

/-! ## Shifts -/

theorem int64_ok {r : Int} (h : -(2 ^ 63) ≤ r ∧ r < 2 ^ 63) : int64 r = .ok (Int64.ofInt r) :=
  if_pos h

theorem shifted_left (v : Int64) (d : Nat) :
    shifted v d = Int64.ofInt (v.toUInt64.toNat * 2 ^ d : Nat) := by
  simp [shifted]

theorem shifted_right (v : Int64) (d : Nat) :
    shifted v (-d) = Int64.ofInt (v.toUInt64.toNat / 2 ^ d : Nat) := by
  simp [shifted]

theorem neg_eq {x : Int64} (h : x ≠ Int64.minValue) : neg x = .ok (Int64.ofInt (-x.toInt)) := by
  have hlow := x.le_toInt
  have hhigh := x.toInt_lt
  have hne : x.toInt ≠ -(2 ^ 63) := fun hx => h (Int64.toInt_inj.mp hx)
  exact int64_ok (by omega)

theorem toInt_ofInt_neg {x : Int64} (h : x ≠ Int64.minValue) :
    (Int64.ofInt (-x.toInt)).toInt = -x.toInt := by
  have hlow := x.le_toInt
  have hhigh := x.toInt_lt
  have hne : x.toInt ≠ -(2 ^ 63) := fun hx => h (Int64.toInt_inj.mp hx)
  exact Int64.toInt_ofInt_of_le (by omega) (by omega)

theorem toInt64_shiftRight (u : UInt64) {d : Nat} (h : d < 64) :
    (u >>> UInt64.ofNat d).toInt64 = Int64.ofInt (u.toNat / 2 ^ d : Nat) := by
  have hshift : u >>> UInt64.ofNat d = UInt64.ofNat (u.toNat / 2 ^ d) := by
    apply UInt64.toNat_inj.mp
    have hle := (Nat.div_le_self u.toNat (2 ^ d)).trans_lt u.toNat_lt
    have hd : d % 2 ^ 64 % 64 = d := by omega
    rw [UInt64.toNat_shiftRight, UInt64.toNat_ofNat', UInt64.toNat_ofNat', hd,
      Nat.shiftRight_eq_div_pow, Nat.mod_eq_of_lt hle]
  rw [hshift, Int64.ofInt_eq_ofNat, UInt64.toInt64_ofNat']

theorem toInt64_shiftLeft (u : UInt64) {d : Nat} (h : d < 64) :
    (u <<< UInt64.ofNat d).toInt64 = Int64.ofInt (u.toNat * 2 ^ d : Nat) := by
  have hshift : u <<< UInt64.ofNat d = UInt64.ofNat (u.toNat * 2 ^ d) := by
    apply UInt64.toNat_inj.mp
    have hd : d % 2 ^ 64 % 64 = d := by omega
    rw [UInt64.toNat_shiftLeft, UInt64.toNat_ofNat', UInt64.toNat_ofNat', hd, Nat.shiftLeft_eq]
  rw [hshift, Int64.ofInt_eq_ofNat, UInt64.toInt64_ofNat']

theorem shifted_left_far (v : Int64) {d : Nat} (h : 64 ≤ d) : shifted v d = 0 := by
  obtain ⟨k, rfl⟩ := Nat.exists_eq_add_of_le h
  have hpow : v.toUInt64.toNat * 2 ^ (64 + k) = 2 ^ 64 * (v.toUInt64.toNat * 2 ^ k) := by ring
  have hzero : UInt64.ofNat (2 ^ 64 * (v.toUInt64.toNat * 2 ^ k)) = 0 := by
    apply UInt64.toNat_inj.mp
    rw [UInt64.toNat_ofNat', Nat.mul_mod_right]
    rfl
  rw [shifted_left, Int64.ofInt_eq_ofNat, ← UInt64.toInt64_ofNat', hpow, hzero]
  rfl

theorem shifted_right_far (v : Int64) {d : Nat} (h : 64 ≤ d) : shifted v (-d) = 0 := by
  have hv := v.toUInt64.toNat_lt
  have hpow : 2 ^ 64 ≤ 2 ^ d := Nat.pow_le_pow_right (by omega) h
  rw [shifted_right, Nat.div_eq_of_lt (hv.trans_le hpow)]
  rfl

theorem shiftl_eq (v disp : Int64) : shiftl v disp = .ok (shifted v disp.toInt) := by
  have hlow := disp.le_toInt
  have hhigh := disp.toInt_lt
  by_cases hneg : disp < 0
  · have hneg' : disp.toInt < 0 := Int64.lt_iff_toInt_lt.mp hneg
    obtain ⟨d, hd⟩ : ∃ d : Nat, disp.toInt = -d := ⟨disp.toInt.natAbs, by omega⟩
    rw [hd, shiftl, if_pos hneg]
    by_cases hfar : disp ≤ -64
    · have hfar' : disp.toInt ≤ -64 := Int64.le_iff_toInt_le.mp hfar
      rw [if_pos hfar, shifted_right_far v (by omega)]
    · have hnear : ¬ disp.toInt ≤ -64 := fun h => hfar (Int64.le_iff_toInt_le.mpr h)
      have hmin : disp ≠ Int64.minValue := by
        rintro rfl
        exact hnear (by decide)
      have hd' : (Int64.ofInt (-disp.toInt)).toInt = d := by rw [toInt_ofInt_neg hmin, hd]; omega
      rw [if_neg hfar, neg_eq hmin, shifted_right, ← toInt64_shiftRight v.toUInt64 (by omega),
        ← toUInt64_of_toInt hd']
      rfl
  · have hpos : ¬ disp.toInt < 0 := fun h => hneg (Int64.lt_iff_toInt_lt.mpr h)
    obtain ⟨d, hd⟩ : ∃ d : Nat, disp.toInt = d := ⟨disp.toInt.natAbs, by omega⟩
    rw [hd, shiftl, if_neg hneg]
    by_cases hfar : 64 ≤ disp
    · have hfar' : 64 ≤ disp.toInt := Int64.le_iff_toInt_le.mp hfar
      rw [if_pos hfar, shifted_left_far v (by omega)]
    · have hnear : ¬ 64 ≤ disp.toInt := fun h => hfar (Int64.le_iff_toInt_le.mpr h)
      rw [if_neg hfar, toUInt64_of_toInt hd, shifted_left, toInt64_shiftLeft _ (by omega)]

theorem shiftr_eq {x y : Int64} (h : y ≠ Int64.minValue) :
    bitwiseRaw .shr x y = .ok (shifted x (-y.toInt)) := by
  have hneg : bitwiseRaw .shr x y = shiftl x (Int64.ofInt (-y.toInt)) := by
    rw [bitwiseRaw, neg_eq h]
    rfl
  rw [hneg, shiftl_eq, toInt_ofInt_neg h]

/-! ## Division -/

theorem floored_of_truncated {m n : Int} (hn : n ≠ 0) :
    m.fdiv n = m.tdiv n - (if m.tmod n ≠ 0 ∧ ¬ (m < 0 ↔ n < 0) then 1 else 0) ∧
      m.fmod n = m.tmod n + (if m.tmod n ≠ 0 ∧ ¬ (m < 0 ↔ n < 0) then n else 0) := by
  have hdvd : n ∣ m ↔ m.tmod n = 0 := Int.dvd_iff_tmod_eq_zero
  rw [Int.fdiv_eq_tdiv, Int.fmod_eq_tmod]
  by_cases h : n ∣ m
  · simp [h, hdvd.mp h]
  · have hne : m.tmod n ≠ 0 := fun hzero => h (hdvd.mpr hzero)
    have hm : m ≠ 0 := by
      rintro rfl
      exact h (dvd_zero n)
    have hpos : 0 < n → n.sign = 1 := Int.sign_eq_one_of_pos
    have hneg : n < 0 → n.sign = -1 := Int.sign_eq_neg_one_of_neg
    simp only [if_neg h, hne, ne_eq, not_false_eq_true, true_and]
    split_ifs <;> omega

theorem xor_neg_iff (m n : Int64) : m ^^^ n < 0 ↔ ¬ (m.toInt < 0 ↔ n.toInt < 0) := by
  have hmsb (x : Int64) : x.toInt < 0 ↔ x.toBitVec.msb = true := by
    rw [BitVec.msb_eq_toInt]
    simp
  rw [Int64.lt_iff_toInt_lt, hmsb m, hmsb n]
  simp only [Int64.toInt_zero, hmsb]
  simp

/-- A quotient is less than half the dividend unless the division has no effect. -/
theorem natAbs_tdiv_le {m n : Int} (hn : n ≠ 0) (hone : n ≠ 1) (hminus : n ≠ -1) :
    2 * (m.tdiv n).natAbs ≤ m.natAbs := by
  have htwo : 2 ≤ n.natAbs := by omega
  have hdiv : (m.tdiv n).natAbs = m.natAbs / n.natAbs := Int.natAbs_tdiv m n
  have hle : m.natAbs / n.natAbs ≤ m.natAbs / 2 := Nat.div_le_div_left htwo (by omega)
  omega

theorem tmod_sign (m n : Int) : (0 ≤ m → 0 ≤ m.tmod n) ∧ (m ≤ 0 → m.tmod n ≤ 0) := by
  refine ⟨Int.tmod_nonneg n, fun hm => ?_⟩
  have hneg := Int.tmod_nonneg n (neg_nonneg.mpr hm)
  rw [Int.neg_tmod] at hneg
  omega

theorem fmod_between (m n : Int) :
    (0 < n → 0 ≤ m.fmod n ∧ m.fmod n < n) ∧ (n < 0 → n < m.fmod n ∧ m.fmod n ≤ 0) := by
  refine ⟨fun hpos => ⟨Int.fmod_nonneg_of_pos m hpos, Int.fmod_lt_of_pos m hpos⟩, fun hneg => ?_⟩
  have hnonneg := Int.fmod_nonneg_of_pos (-m) (neg_pos.mpr hneg)
  have hlt := Int.fmod_lt_of_pos (-m) (neg_pos.mpr hneg)
  rw [Int.neg_fmod_neg] at hnonneg hlt
  omega

section Division

variable {m n : Int64} (hn : n ≠ 0) (hminus : n ≠ -1)

theorem toInt_ne {k : Int64} (h : n ≠ k) : n.toInt ≠ k.toInt :=
  fun heq => h (Int64.toInt_inj.mp heq)

include hn

theorem natAbs_tmod_lt : (m.toInt.tmod n.toInt).natAbs < n.toInt.natAbs := by
  have hne : n.toInt ≠ 0 := toInt_ne hn
  rw [Int.natAbs_tmod]
  exact Nat.mod_lt _ (by omega)

theorem toInt_tmod : (Int64.ofInt (m.toInt.tmod n.toInt)).toInt = m.toInt.tmod n.toInt := by
  have hsmall := natAbs_tmod_lt (m := m) hn
  have hlow := n.le_toInt
  have hhigh := n.toInt_lt
  exact Int64.toInt_ofInt_of_le (by omega) (by omega)

theorem tmod_ne_zero_iff : Int64.ofInt (m.toInt.tmod n.toInt) ≠ 0 ↔ m.toInt.tmod n.toInt ≠ 0 := by
  rw [ne_eq, ← Int64.toInt_inj, toInt_tmod hn]
  rfl

include hminus

theorem tdiv_fits : -(2 ^ 63) ≤ m.toInt.tdiv n.toInt ∧ m.toInt.tdiv n.toInt < 2 ^ 63 := by
  have hne : n.toInt ≠ 0 := toInt_ne hn
  have hne' : n.toInt ≠ -1 := toInt_ne hminus
  have hlow := m.le_toInt
  have hhigh := m.toInt_lt
  by_cases hone : n.toInt = 1
  · rw [hone, Int.tdiv_one]
    exact ⟨hlow, hhigh⟩
  · have hhalf := natAbs_tdiv_le (m := m.toInt) hne hone hne'
    omega

theorem quot_ok : quot m n = .ok (Int64.ofInt (m.toInt.tdiv n.toInt)) := by
  rw [quot, if_neg hn]
  exact int64_ok (tdiv_fits hn hminus)

theorem rem_ok : rem m n = .ok (Int64.ofInt (m.toInt.tmod n.toInt)) := by
  have hsmall := natAbs_tmod_lt (m := m) hn
  have hlow := n.le_toInt
  have hhigh := n.toInt_lt
  rw [rem, quot_ok hn hminus]
  exact int64_ok (by omega)

theorem not_special : ¬ n.toUInt64 + 1 ≤ 1 := by
  have hne := toInt_ne hn
  have hne' := toInt_ne hminus
  have hlt := n.toBitVec.isLt
  have htoInt : n.toInt = _ := BitVec.toInt_eq_toNat_cond n.toBitVec
  have hadd : (n.toUInt64 + 1).toNat = (n.toBitVec.toNat + 1) % 2 ^ 64 := rfl
  have hone : (1 : UInt64).toNat = 1 := rfl
  have hzero : (0 : Int64).toInt = 0 := rfl
  have hminusOne : (-1 : Int64).toInt = -1 := rfl
  rw [UInt64.le_iff_toNat_le, hadd, hone]
  split at htoInt <;> omega

theorem idiv_eq : intIdivMod .idiv m n = .ok (Int64.ofInt (m.toInt.fdiv n.toInt)) := by
  have hne : n.toInt ≠ 0 := toInt_ne hn
  have hne' : n.toInt ≠ -1 := toInt_ne hminus
  have hfits := tdiv_fits (m := m) hn hminus
  have hquot : (Int64.ofInt (m.toInt.tdiv n.toInt)).toInt = m.toInt.tdiv n.toInt :=
    Int64.toInt_ofInt_of_le hfits.1 hfits.2
  have hrun : intIdivMod .idiv m n =
      if m ^^^ n < 0 then
        if Int64.ofInt (m.toInt.tmod n.toInt) ≠ 0 then int64 (m.toInt.tdiv n.toInt - 1)
        else .ok (Int64.ofInt (m.toInt.tdiv n.toInt))
      else .ok (Int64.ofInt (m.toInt.tdiv n.toInt)) := by
    rw [intIdivMod, if_neg (not_special hn hminus), if_pos rfl, quot_ok hn hminus,
      rem_ok hn hminus, ← hquot, Int64.ofInt_toInt]
    rfl
  rw [hrun, (floored_of_truncated hne).1]
  simp only [xor_neg_iff, tmod_ne_zero_iff hn]
  by_cases hsign : m.toInt < 0 ↔ n.toInt < 0
  · simp [hsign]
  · by_cases hzero : m.toInt.tmod n.toInt = 0
    · simp [hzero]
    · -- the division has an effect, so one can be taken off
      have hone : n.toInt ≠ 1 := by
        intro hone
        rw [hone] at hzero
        exact hzero (Int.tmod_one _)
      have hhalf := natAbs_tdiv_le (m := m.toInt) hne hone hne'
      have hlow := m.le_toInt
      have hhigh := m.toInt_lt
      simp only [hsign, hzero, ne_eq, not_false_eq_true, if_true, and_self]
      exact int64_ok (by omega)

theorem mod_eq : intIdivMod .mod m n = .ok (Int64.ofInt (m.toInt.fmod n.toInt)) := by
  have hne : n.toInt ≠ 0 := toInt_ne hn
  have hrem := toInt_tmod (m := m) hn
  have hrun : intIdivMod .mod m n =
      if Int64.ofInt (m.toInt.tmod n.toInt) ≠ 0 ∧ m ^^^ n < 0 then
        int64 (m.toInt.tmod n.toInt + n.toInt)
      else .ok (Int64.ofInt (m.toInt.tmod n.toInt)) := by
    rw [intIdivMod, if_neg (not_special hn hminus), if_neg (by decide), rem_ok hn hminus, ← hrem,
      Int64.ofInt_toInt]
    rfl
  rw [hrun, (floored_of_truncated hne).2]
  simp only [xor_neg_iff, tmod_ne_zero_iff hn]
  by_cases h : m.toInt.tmod n.toInt ≠ 0 ∧ ¬ (m.toInt < 0 ↔ n.toInt < 0)
  · have hsmall := natAbs_tmod_lt (m := m) hn
    have hlow := n.le_toInt
    have hhigh := n.toInt_lt
    have hsign := tmod_sign m.toInt n.toInt
    rw [if_pos h, if_pos h]
    exact int64_ok (by omega)
  · rw [if_neg h, if_neg h, add_zero]

end Division

theorem divide_by_minus_one (m : Int64) :
    intIdivMod .idiv m (-1) = .ok (Int64.ofInt (m.toInt.fdiv (-1))) ∧
      intIdivMod .mod m (-1) = .ok (Int64.ofInt (m.toInt.fmod (-1))) := by
  have hdiv : m.toInt.fdiv (-1) = -m.toInt := by
    rw [Int.fdiv_neg (by decide), if_pos (one_dvd _), Int.fdiv_one]
  have hmod : m.toInt.fmod (-1) = 0 := by
    have hbetween := (fmod_between m.toInt (-1)).2 (by decide)
    omega
  rw [hdiv, hmod, ← intopUnm_eq]
  exact ⟨rfl, rfl⟩

theorem floored {n : Int64} (m : Int64) (hn : n ≠ 0) :
    Floored m n (Int64.ofInt (m.toInt.fdiv n.toInt)) (Int64.ofInt (m.toInt.fmod n.toInt)) := by
  have hne : n.toInt ≠ 0 := toInt_ne hn
  have hbetween := fmod_between m.toInt n.toInt
  have hlow := n.le_toInt
  have hhigh := n.toInt_lt
  have hrem : (Int64.ofInt (m.toInt.fmod n.toInt)).toInt = m.toInt.fmod n.toInt :=
    Int64.toInt_ofInt_of_le (by omega) (by omega)
  refine ⟨?_, rfl, ?_, ?_⟩
  · calc
      Int64.ofInt (m.toInt.fdiv n.toInt) * n + Int64.ofInt (m.toInt.fmod n.toInt)
        = Int64.ofInt (m.toInt.fdiv n.toInt * n.toInt + m.toInt.fmod n.toInt) := by
          rw [Int64.ofInt_add, Int64.ofInt_mul, Int64.ofInt_toInt]
      _ = m := by rw [Int.fdiv_mul_add_fmod, Int64.ofInt_toInt]
  · rw [Int64.lt_iff_toInt_lt, Int64.lt_iff_toInt_lt, ← Int64.toInt_inj, hrem, Int64.toInt_zero]
    omega
  · rw [hrem]
    omega

theorem divide_meets (m n : Int64) :
    (n = 0 → ∀ op, ∃ text, intIdivMod op m n = .error (.raised text)) ∧
      (n ≠ 0 → intIdivMod .idiv m n = .ok (Int64.ofInt (m.toInt.fdiv n.toInt)) ∧
        intIdivMod .mod m n = .ok (Int64.ofInt (m.toInt.fmod n.toInt))) := by
  constructor
  · rintro rfl op
    have hspecial : (0 : Int64).toUInt64 + 1 ≤ 1 := by decide
    rw [intIdivMod, if_pos hspecial, if_pos rfl]
    by_cases hop : op = .idiv
    · exact ⟨_, if_pos hop⟩
    · exact ⟨_, if_neg hop⟩
  · intro hn
    by_cases hminus : n = -1
    · subst hminus
      exact divide_by_minus_one m
    · exact ⟨idiv_eq hn hminus, mod_eq hn hminus⟩

/-! ## All operators -/

/-- The operators are arithmetic modulo `2 ^ 64` and nothing is undefined on the way,
except that a shift to the right negates the least displacement. -/
theorem integer_arithmetic_iff (op : OpCode) (x y : Int64) (out : Checked Int64)
    (h : integerPath op x y = some out) :
    Meets op x y out ↔ ¬ (op = .shr ∧ y = Int64.minValue) := by
  have hzero := (divide_meets x y).1
  have hne := (divide_meets x y).2
  have hfloored := fun hy => floored (n := y) x hy
  cases op <;> simp only [integerPath, Option.some.injEq, reduceCtorEq] at h <;> subst h <;>
    simp only [Meets, reduceCtorEq, false_and, not_false_eq_true, iff_true, true_and]
  case add => rw [intopAdd_eq]
  case sub => rw [intopSub_eq]
  case mul => rw [intopMul_eq]
  case unm => rw [intopUnm_eq]
  case band => rfl
  case bor => rfl
  case bxor => rfl
  case bnot => rfl
  case idiv =>
    by_cases hy : y = 0
    · rw [if_pos hy]
      exact hzero hy .idiv
    · rw [if_neg hy]
      exact ⟨_, _, (hne hy).1, hfloored hy⟩
  case mod =>
    by_cases hy : y = 0
    · rw [if_pos hy]
      exact hzero hy .mod
    · rw [if_neg hy]
      exact ⟨_, _, (hne hy).2, hfloored hy⟩
  case shl => exact shiftl_eq x y
  case shr =>
    constructor
    · rintro hmeets rfl
      have hundefined : bitwiseRaw .shr x Int64.minValue = .error .undefined := rfl
      rw [hundefined] at hmeets
      exact nomatch hmeets
    · exact shiftr_eq

theorem integer_arithmetic_mininteger :
    Meets .idiv Int64.minValue (-1) (.ok Int64.minValue) ↔
      ¬ (OpCode.idiv = .shr ∧ (-1 : Int64) = Int64.minValue) :=
  integer_arithmetic_iff .idiv Int64.minValue (-1) (.ok Int64.minValue) rfl

/-- `1 >> math.mininteger` negates a displacement whose negative does not fit. -/
theorem shift_by_mininteger :
    ¬ ∀ out, integerPath .shr 1 Int64.minValue = some out → Meets .shr 1 Int64.minValue out :=
  fun h => nomatch h (.error .undefined) rfl

end IntegerArith

end Luatier
