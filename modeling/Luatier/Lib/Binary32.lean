import Luatier.Lib.Binary64

/-!
# Between binary32 and binary64

The conversions between the two IEEE 754 formats, on magnitudes: the word without
its sign.  Every binary32 value has an exact binary64 word, and rounding that word
gives it back.
-/

namespace Binary32

open Binary64

abbrev Single := UInt32

def roundShift (m d : Nat) : Nat :=
  let q := m / 2 ^ d
  let r := 2 * (m % 2 ^ d)
  if 2 ^ d < r ∨ (r = 2 ^ d ∧ q % 2 = 1) then q + 1 else q

theorem roundShift_mul (q d : Nat) : roundShift (q * 2 ^ d) d = q := by
  have hpos := Nat.two_pow_pos d
  simp only [roundShift, Nat.mul_mod_left, Nat.mul_div_cancel _ hpos]
  rw [if_neg]
  omega

theorem roundShift_zero (d : Nat) : roundShift 0 d = 0 := by
  have := roundShift_mul 0 d
  rwa [Nat.zero_mul] at this

/-- The binary64 magnitude with the value of a binary32 magnitude of these fields. -/
def widenFields (exp frac : Nat) : Nat :=
  if exp = 255 then
    -- a not-a-number becomes a quiet one
    2047 * 2 ^ 52 + if frac = 0 then 0 else (frac ||| 2 ^ 22) * 2 ^ 29
  else if exp = 0 then
    if frac = 0 then 0
    else (frac.log2 + 873) * 2 ^ 52 + frac * 2 ^ (52 - frac.log2)
  else (exp + 896) * 2 ^ 52 + frac * 2 ^ 29

def widenMagnitude (m : Nat) : Nat := widenFields (m / 2 ^ 23) (m % 2 ^ 23)

/-- The binary32 magnitude nearest to a binary64 magnitude of these fields. -/
def narrowFields (exp frac : Nat) : Nat :=
  if exp = 2047 then
    255 * 2 ^ 23 + if frac = 0 then 0 else frac / 2 ^ 29 ||| 2 ^ 22
  else
    let significand := if exp = 0 then frac else 2 ^ 52 + frac
    if 897 ≤ exp then
      min ((exp - 897) * 2 ^ 23 + roundShift significand 29) (255 * 2 ^ 23)
    else roundShift significand (926 - max exp 1)

def narrowMagnitude (m : Nat) : Nat := narrowFields (m / 2 ^ 52) (m % 2 ^ 52)

/-- `static_cast<double>` of a float. -/
def widen (f : Single) : Word :=
  UInt64.ofNat (f.toNat / 2 ^ 31 * 2 ^ 63 + widenMagnitude (f.toNat % 2 ^ 31))

/-- `static_cast<float>` of a double. -/
def narrow (w : Word) : Single :=
  UInt32.ofNat (w.toNat / 2 ^ 63 * 2 ^ 31 + narrowMagnitude (w.toNat % 2 ^ 63))

theorem fields_of_lt {e a w : Nat} (h : a < w) : (e * w + a) / w = e ∧ (e * w + a) % w = a := by
  constructor
  · rw [Nat.mul_comm, Nat.mul_add_div (by omega), Nat.div_eq_of_lt h, Nat.add_zero]
  · rw [Nat.mul_comm, Nat.mul_add_mod, Nat.mod_eq_of_lt h]

theorem quiet_lt {frac : Nat} (h : frac < 2 ^ 23) : frac ||| 2 ^ 22 < 2 ^ 23 :=
  Nat.or_lt_two_pow h (by decide)

theorem quiet_ne_zero (frac : Nat) : frac ||| 2 ^ 22 ≠ 0 := by
  have : 2 ^ 22 ≤ frac ||| 2 ^ 22 := Nat.right_le_or
  omega

theorem normalized {frac : Nat} (h0 : frac ≠ 0) (h : frac < 2 ^ 23) :
    frac.log2 ≤ 22 ∧ 2 ^ 52 ≤ frac * 2 ^ (52 - frac.log2) ∧
      frac * 2 ^ (52 - frac.log2) < 2 ^ 53 := by
  have hk : frac.log2 ≤ 22 := Nat.lt_succ_iff.mp ((Nat.log2_lt h0).mpr h)
  have hlow : 2 ^ frac.log2 ≤ frac := Nat.log2_self_le h0
  have hhigh : frac < 2 ^ (frac.log2 + 1) := Nat.lt_log2_self
  have hpos := Nat.two_pow_pos (52 - frac.log2)
  refine ⟨hk, ?_, ?_⟩
  · calc 2 ^ 52 = 2 ^ frac.log2 * 2 ^ (52 - frac.log2) := by
          rw [← Nat.pow_add]
          congr 1
          omega
      _ ≤ frac * 2 ^ (52 - frac.log2) := Nat.mul_le_mul_right _ hlow
  · calc frac * 2 ^ (52 - frac.log2) < 2 ^ (frac.log2 + 1) * 2 ^ (52 - frac.log2) :=
          Nat.mul_lt_mul_of_pos_right hhigh hpos
      _ = 2 ^ 53 := by
          rw [← Nat.pow_add]
          congr 1
          omega

theorem narrowMagnitude_fields {e a : Nat} (h : a < 2 ^ 52) :
    narrowMagnitude (e * 2 ^ 52 + a) = narrowFields e a := by
  obtain ⟨he, ha⟩ := fields_of_lt (e := e) h
  rw [narrowMagnitude, he, ha]

theorem widenFields_lt {exp frac : Nat} (he : exp < 256) (hf : frac < 2 ^ 23) :
    widenFields exp frac < 2 ^ 63 := by
  unfold widenFields
  split_ifs with hnan hzero hexp0 hfrac0
  · decide
  · have := quiet_lt hf
    omega
  · decide
  · obtain ⟨hk, -, hlt⟩ := normalized hfrac0 hf
    omega
  · omega

theorem narrow_widen_nan {frac : Nat} (h0 : frac ≠ 0) (hf : frac < 2 ^ 23) :
    narrowMagnitude (widenFields 255 frac) = 255 * 2 ^ 23 + (frac ||| 2 ^ 22) := by
  have hquiet := quiet_lt hf
  have hne := quiet_ne_zero frac
  rw [widenFields, if_pos rfl, if_neg h0, narrowMagnitude_fields (by omega), narrowFields,
    if_pos rfl, if_neg (by omega), Nat.mul_div_cancel _ (Nat.two_pow_pos 29), Nat.or_assoc,
    Nat.or_self]

theorem narrow_widen_subnormal {frac : Nat} (h0 : frac ≠ 0) (hf : frac < 2 ^ 23) :
    narrowMagnitude (widenFields 0 frac) = frac := by
  obtain ⟨hk, hlow, hhigh⟩ := normalized h0 hf
  have hword : (frac.log2 + 873) * 2 ^ 52 + frac * 2 ^ (52 - frac.log2) =
      (frac.log2 + 874) * 2 ^ 52 + (frac * 2 ^ (52 - frac.log2) - 2 ^ 52) := by
    omega
  rw [widenFields, if_neg (by decide), if_pos rfl, if_neg h0, hword,
    narrowMagnitude_fields (by omega), narrowFields, if_neg (by omega)]
  simp only
  rw [if_neg (by omega), if_neg (by omega), Nat.add_sub_cancel' hlow,
    show 926 - max (frac.log2 + 874) 1 = 52 - frac.log2 by omega, roundShift_mul]

theorem narrow_widen_normal {exp frac : Nat} (h0 : exp ≠ 0) (he : exp < 255)
    (hf : frac < 2 ^ 23) : narrowMagnitude (widenFields exp frac) = exp * 2 ^ 23 + frac := by
  have hsig : 2 ^ 52 + frac * 2 ^ 29 = (2 ^ 23 + frac) * 2 ^ 29 := by omega
  rw [widenFields, if_neg (by omega), if_neg h0, narrowMagnitude_fields (by omega),
    narrowFields, if_neg (by omega)]
  simp only
  rw [if_pos (by omega), if_neg (by omega), hsig, roundShift_mul]
  omega

theorem narrow_widen_zero : narrowMagnitude (widenFields 0 0) = 0 := by
  have hwide : widenFields 0 0 = 0 * 2 ^ 52 + 0 := rfl
  rw [hwide, narrowMagnitude_fields (by decide), narrowFields, if_neg (by decide)]
  simp only [if_true]
  rw [if_neg (by decide), roundShift_zero]

theorem narrowMagnitude_widenFields {exp frac : Nat} (he : exp < 256) (hf : frac < 2 ^ 23) :
    narrowMagnitude (widenFields exp frac) =
      exp * 2 ^ 23 + if exp = 255 ∧ frac ≠ 0 then frac ||| 2 ^ 22 else frac := by
  by_cases hinf : exp = 255
  · subst hinf
    by_cases h0 : frac = 0
    · subst h0
      rfl
    · rw [narrow_widen_nan h0 hf, if_pos ⟨rfl, h0⟩]
  · rw [if_neg fun h => hinf h.1]
    by_cases hsub : exp = 0
    · subst hsub
      by_cases h0 : frac = 0
      · subst h0
        exact narrow_widen_zero
      · rw [narrow_widen_subnormal h0 hf, Nat.zero_mul, Nat.zero_add]
    · exact narrow_widen_normal hsub (by omega) hf

theorem widenMagnitude_lt {m : Nat} (h : m < 2 ^ 31) : widenMagnitude m < 2 ^ 63 :=
  widenFields_lt (by omega) (Nat.mod_lt _ (by decide))

theorem widenMagnitude_narrowMagnitude {m : Nat} (h : m < 2 ^ 31) :
    narrowMagnitude (widenMagnitude m) < 2 ^ 31 ∧
      widenMagnitude (narrowMagnitude (widenMagnitude m)) = widenMagnitude m := by
  have hexp : m / 2 ^ 23 < 256 := by omega
  have hfrac : m % 2 ^ 23 < 2 ^ 23 := Nat.mod_lt _ (by decide)
  rw [widenMagnitude, narrowMagnitude_widenFields hexp hfrac]
  split_ifs with hnan
  · have hquiet := quiet_lt hfrac
    refine ⟨by omega, ?_⟩
    obtain ⟨he, hf⟩ := fields_of_lt (e := m / 2 ^ 23) hquiet
    rw [widenMagnitude, he, hf, hnan.1, widenFields, if_pos rfl, if_neg (quiet_ne_zero _),
      widenFields, if_pos rfl, if_neg hnan.2, Nat.or_assoc, Nat.or_self]
  · rw [Nat.div_add_mod']
    exact ⟨h, rfl⟩

theorem widen_narrow_widen (f : Single) : widen (narrow (widen f)) = widen f := by
  have hlow : f.toNat % 2 ^ 31 < 2 ^ 31 := Nat.mod_lt _ (by decide)
  have hsign : f.toNat / 2 ^ 31 < 2 := by
    have := f.toNat_lt
    omega
  have hwide := widenMagnitude_lt hlow
  obtain ⟨hnarrow, hback⟩ := widenMagnitude_narrowMagnitude hlow
  have hw : (widen f).toNat = f.toNat / 2 ^ 31 * 2 ^ 63 + widenMagnitude (f.toNat % 2 ^ 31) := by
    rw [widen, UInt64.toNat_ofNat']
    exact Nat.mod_eq_of_lt (by omega)
  obtain ⟨hs, hm⟩ := fields_of_lt (e := f.toNat / 2 ^ 31) hwide
  have hn : (narrow (widen f)).toNat = f.toNat / 2 ^ 31 * 2 ^ 31 +
      narrowMagnitude (widenMagnitude (f.toNat % 2 ^ 31)) := by
    rw [narrow, hw, hs, hm, UInt32.toNat_ofNat']
    exact Nat.mod_eq_of_lt (by omega)
  obtain ⟨hs', hm'⟩ := fields_of_lt (e := f.toNat / 2 ^ 31) hnarrow
  rw [widen, hn, hs', hm', hback, widen]

end Binary32

namespace Binary64

/-! ## Machine integers -/

def magnitudeOfNat (m : Nat) : Nat :=
  if m = 0 then 0
  else if m.log2 ≤ 52 then (m.log2 + 1022) * 2 ^ 52 + m * 2 ^ (52 - m.log2)
  else (m.log2 + 1022) * 2 ^ 52 + Binary32.roundShift m (m.log2 - 52)

/-- `static_cast<double>` of an integer. -/
def ofInt (n : Int) : Word :=
  UInt64.ofNat ((if n < 0 then 2 ^ 63 else 0) + magnitudeOfNat n.natAbs)

end Binary64
