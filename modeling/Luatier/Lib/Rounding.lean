import Luatier.Lib.Binary32

/-!
# The binary64 word nearest to a ratio

A ratio of natural numbers is rounded to the nearest finite word, and to the even one
of two that are equally near; from half a place above the greatest word on, to
infinity.  Distances are compared as cross products, in units of the smallest
subnormal.
-/

namespace Binary64

def roundDiv (n d : Nat) : Nat :=
  let q := n / d
  let r := 2 * (n % d)
  if d < r ∨ (r = d ∧ q % 2 = 1) then q + 1 else q

/-- The weight of the last place of the words around `n / d`, as a power of two. -/
def placeOf (n d : Nat) : Nat := (n * unitsPerOne / d).log2 - 52

def infinityMagnitude : Nat := 2047 * 2 ^ 52

def magnitudeOfRatio (n d : Nat) : Nat :=
  min infinityMagnitude
    (placeOf n d * 2 ^ 52 + roundDiv (n * unitsPerOne) (d * 2 ^ placeOf n d))

def ofRatio (negative : Bool) (n d : Nat) : Word :=
  UInt64.ofNat ((if negative then 2 ^ 63 else 0) + magnitudeOfRatio n d)

/-! ## Correct rounding -/

def distance (n d : Nat) (w : Word) : Nat :=
  ((units w * d : Int) - (n * unitsPerOne : Nat)).natAbs

def overflowPlace : Nat := 2044

def overflowUnits : Nat := (2 ^ 54 - 1) * 2 ^ overflowPlace

structure CorrectlyRounded (negative : Bool) (n d : Nat) (w : Word) : Prop where
  sign : signBit w = negative
  infinite : overflowUnits * d ≤ n * unitsPerOne → expField w = 2047 ∧ fracField w = 0
  finite : n * unitsPerOne < overflowUnits * d → expField w ≠ 2047
  nearest : n * unitsPerOne < overflowUnits * d → ∀ w', expField w' ≠ 2047 →
    distance n d w < distance n d w' ∨
      distance n d w = distance n d w' ∧ (units w' = units w ∨ fracField w % 2 = 0)

variable {n d k : Nat}

theorem roundDiv_half (hd : 0 < d) :
    2 * ((roundDiv n d * d : Int) - n).natAbs < d ∨
      2 * ((roundDiv n d * d : Int) - n).natAbs = d ∧ roundDiv n d % 2 = 0 := by
  have hdiv := Nat.div_add_mod n d
  have hmod := Nat.mod_lt n hd
  simp only [roundDiv]
  generalize n / d = q at hdiv ⊢
  generalize n % d = r at hdiv hmod ⊢
  subst hdiv
  split
  · rename_i hup
    have hoff : ((q + 1 : Nat) * d : Int) - ((d * q + r : Nat) : Int) = d - r := by
      push_cast
      ring
    rw [hoff]
    omega
  · rename_i hdown
    have hoff : ((q : Nat) * d : Int) - ((d * q + r : Nat) : Int) = -r := by
      push_cast
      ring
    rw [hoff]
    omega

theorem roundDiv_nearest (hd : 0 < d) :
    ((roundDiv n d * d : Int) - n).natAbs < ((k * d : Int) - n).natAbs ∨
      ((roundDiv n d * d : Int) - n).natAbs = ((k * d : Int) - n).natAbs ∧
        (k = roundDiv n d ∨ roundDiv n d % 2 = 0) := by
  have hhalf := roundDiv_half (n := n) hd
  generalize roundDiv n d = q at hhalf ⊢
  rcases Nat.lt_trichotomy k q with hlt | rfl | hgt
  · have hstep : (k * d : Int) + d ≤ q * d := by
      have : (k + 1) * d ≤ q * d := Nat.mul_le_mul_right d hlt
      zify at this
      linarith
    omega
  · exact .inr ⟨rfl, .inl rfl⟩
  · have hstep : (q * d : Int) + d ≤ k * d := by
      have : (q + 1) * d ≤ k * d := Nat.mul_le_mul_right d hgt
      zify at this
      linarith
    omega

/-! ### The place of the last bit -/

theorem units_le_of_place (hplace : 0 < placeOf n d) :
    2 ^ (52 + placeOf n d) * d ≤ n * unitsPerOne := by
  have hlog : (n * unitsPerOne / d).log2 = 52 + placeOf n d := by
    simp only [placeOf] at hplace ⊢
    omega
  have hne : n * unitsPerOne / d ≠ 0 := by
    intro h
    simp [placeOf, h] at hplace
  exact (Nat.mul_le_of_le_div _ _ _ (hlog ▸ Nat.log2_self_le hne))

theorem units_lt_of_place (hd : 0 < d) : n * unitsPerOne < 2 ^ (53 + placeOf n d) * d := by
  have hlt : n * unitsPerOne / d < 2 ^ (53 + placeOf n d) := by
    refine Nat.lt_log2_self.trans_le (Nat.pow_le_pow_right (by decide) ?_)
    simp only [placeOf]
    omega
  exact (Nat.div_lt_iff_lt_mul hd).mp hlt

/-- The significand, with one bit more where it is rounded up to a power of two. -/
def significand (n d : Nat) : Nat := roundDiv (n * unitsPerOne) (d * 2 ^ placeOf n d)

theorem significand_half (hd : 0 < d) :
    2 * ((significand n d * (d * 2 ^ placeOf n d : Nat) : Int) - (n * unitsPerOne : Nat)).natAbs <
        d * 2 ^ placeOf n d ∨
      2 * ((significand n d * (d * 2 ^ placeOf n d : Nat) : Int) -
          (n * unitsPerOne : Nat)).natAbs = d * 2 ^ placeOf n d ∧ significand n d % 2 = 0 :=
  roundDiv_half (Nat.mul_pos hd (Nat.two_pow_pos _))

theorem significand_le (hd : 0 < d) : significand n d ≤ 2 ^ 53 := by
  have hhalf := significand_half (n := n) hd
  have hlt := units_lt_of_place (n := n) hd
  have hpos : 0 < d * 2 ^ placeOf n d := Nat.mul_pos hd (Nat.two_pow_pos _)
  rw [show 2 ^ (53 + placeOf n d) * d = 2 ^ 53 * (d * 2 ^ placeOf n d) by ring] at hlt
  generalize d * 2 ^ placeOf n d = D at *
  generalize n * unitsPerOne = N at *
  by_contra hgt
  have : (2 ^ 53 + 1) * D ≤ significand n d * D := Nat.mul_le_mul_right D (by omega)
  zify at this hlt
  omega

theorem le_significand (hd : 0 < d) (hplace : 0 < placeOf n d) : 2 ^ 52 ≤ significand n d := by
  have hhalf := significand_half (n := n) hd
  have hle := units_le_of_place hplace
  have hpos : 0 < d * 2 ^ placeOf n d := Nat.mul_pos hd (Nat.two_pow_pos _)
  rw [show 2 ^ (52 + placeOf n d) * d = 2 ^ 52 * (d * 2 ^ placeOf n d) by ring] at hle
  generalize d * 2 ^ placeOf n d = D at *
  generalize n * unitsPerOne = N at *
  by_contra hlt
  have : (significand n d + 1) * D ≤ 2 ^ 52 * D := Nat.mul_le_mul_right D (by omega)
  rw [Nat.add_one_mul] at this
  zify at this hle
  omega

theorem overflowUnits_lt : overflowUnits < 2 ^ (54 + overflowPlace) := by
  have hpos := Nat.two_pow_pos overflowPlace
  rw [overflowUnits, Nat.pow_add]
  generalize 2 ^ overflowPlace = place at hpos ⊢
  omega

theorem lt_overflowUnits : 2 ^ (53 + overflowPlace) < overflowUnits := by
  have hpos := Nat.two_pow_pos overflowPlace
  rw [overflowUnits, Nat.pow_add]
  generalize 2 ^ overflowPlace = place at hpos ⊢
  omega

theorem two_mul_overflowUnits {place : Nat} (h : place = overflowPlace + 1) :
    2 * (overflowUnits * d) = (2 ^ 54 - 1) * (d * 2 ^ place) := by
  rw [overflowUnits, h]
  ring

theorem placeOf_le (h : n * unitsPerOne < overflowUnits * d) :
    placeOf n d ≤ overflowPlace + 1 := by
  by_contra hlarge
  have hpow : 2 ^ (54 + overflowPlace) ≤ 2 ^ (52 + placeOf n d) :=
    Nat.pow_le_pow_right (by decide) (by omega)
  have hunits : 2 ^ (52 + placeOf n d) * d ≤ n * unitsPerOne := units_le_of_place (by omega)
  have hmul := Nat.mul_le_mul_right d (overflowUnits_lt.le.trans hpow)
  exact absurd (hmul.trans hunits) (not_le.mpr h)

theorem le_placeOf (hd : 0 < d) (h : overflowUnits * d ≤ n * unitsPerOne) :
    overflowPlace + 1 ≤ placeOf n d := by
  by_contra hsmall
  have hpow : 2 ^ (53 + placeOf n d) ≤ 2 ^ (53 + overflowPlace) :=
    Nat.pow_le_pow_right (by decide) (by omega)
  have hmul := Nat.mul_le_mul_right d (hpow.trans lt_overflowUnits.le)
  exact absurd (h.trans_lt (units_lt_of_place hd)) (not_lt.mpr hmul)

/-- A significand rounded up to the next power of two is at the limit or above it. -/
theorem limit_le_of_half {D N limit : Nat} (htwo : 2 * limit = (2 ^ 54 - 1) * D)
    (hhalf : 2 * (((2 ^ 53 : Nat) * (D : Int)) - N).natAbs ≤ D) : limit ≤ N := by
  have habs := Int.le_natAbs (a := ((2 ^ 53 : Nat) * (D : Int)) - N)
  generalize (((2 ^ 53 : Nat) * (D : Int)) - N).natAbs = off at hhalf habs
  norm_num at htwo habs
  zify at htwo hhalf ⊢
  linarith

theorem significand_of_limit {sig D N limit : Nat} (hpos : 0 < D)
    (htwo : 2 * limit = (2 ^ 54 - 1) * D) (hlimit : limit ≤ N) (hle : sig ≤ 2 ^ 53)
    (hhalf : 2 * ((sig * (D : Int)) - N).natAbs < D ∨
      2 * ((sig * (D : Int)) - N).natAbs = D ∧ sig % 2 = 0) : sig = 2 ^ 53 := by
  by_contra hne
  have hlow : sig + 2 ≤ 2 ^ 53 ∨ sig = 2 ^ 53 - 1 := by
    clear htwo hlimit hhalf
    omega
  have habs : (N : Int) - sig * D ≤ ((sig * (D : Int)) - N).natAbs := by
    rw [← Int.natAbs_neg, neg_sub]
    exact Int.le_natAbs
  generalize ((sig * (D : Int)) - N).natAbs = off at hhalf habs
  norm_num at htwo
  zify at htwo hlimit hpos
  rcases hlow with hlow | rfl
  · have hmul : (sig + 2) * D ≤ 2 ^ 53 * D := Nat.mul_le_mul_right D hlow
    have htie : 2 * off ≤ D := hhalf.elim le_of_lt (·.1.le)
    zify at hmul htie
    linarith
  · -- `2 ^ 53 - 1` is odd, so it is no tie
    have hoff := hhalf.resolve_right (fun h => absurd h.2 (by decide))
    norm_num at habs
    zify at hoff
    linarith

theorem magnitude_lt (hd : 0 < d) (h : n * unitsPerOne < overflowUnits * d) :
    placeOf n d * 2 ^ 52 + significand n d < infinityMagnitude := by
  have hle := significand_le (n := n) hd
  have hplace := placeOf_le h
  have hne : placeOf n d = overflowPlace + 1 → significand n d ≠ 2 ^ 53 := by
    intro hlast hsig
    have hhalf := significand_half (n := n) hd
    rw [hsig] at hhalf
    exact absurd h (not_lt.mpr
      (limit_le_of_half (two_mul_overflowUnits hlast) (hhalf.elim le_of_lt (·.1.le))))
  clear h
  generalize significand n d = sig at hle hne ⊢
  generalize placeOf n d = place at hplace hne ⊢
  simp only [infinityMagnitude, overflowPlace] at hplace hne ⊢
  omega

theorem le_magnitude (hd : 0 < d) (h : overflowUnits * d ≤ n * unitsPerOne) :
    infinityMagnitude ≤ placeOf n d * 2 ^ 52 + significand n d := by
  have hplace := le_placeOf hd h
  have hge := le_significand (n := n) hd (Nat.zero_lt_of_lt hplace)
  have hsig : placeOf n d = overflowPlace + 1 → significand n d = 2 ^ 53 := fun hlast =>
    significand_of_limit (Nat.mul_pos hd (Nat.two_pow_pos _)) (two_mul_overflowUnits hlast) h
      (significand_le hd) (significand_half hd)
  clear h
  generalize significand n d = sig at hge hsig ⊢
  generalize placeOf n d = place at hplace hsig ⊢
  simp only [infinityMagnitude, overflowPlace] at hplace hsig ⊢
  omega

/-! ### The word of a place and a significand -/

theorem magnitudeOfRatio_le : magnitudeOfRatio n d ≤ infinityMagnitude := Nat.min_le_left _ _

theorem toNat_ofRatio (negative : Bool) :
    (ofRatio negative n d).toNat = (if negative then 2 ^ 63 else 0) + magnitudeOfRatio n d := by
  have hle := magnitudeOfRatio_le (n := n) (d := d)
  rw [ofRatio, UInt64.toNat_ofNat']
  generalize magnitudeOfRatio n d = m at hle ⊢
  simp only [infinityMagnitude] at hle
  refine Nat.mod_eq_of_lt ?_
  split <;> omega

theorem fields_ofRatio (negative : Bool) :
    signBit (ofRatio negative n d) = negative ∧
      expField (ofRatio negative n d) = magnitudeOfRatio n d / 2 ^ 52 ∧
      fracField (ofRatio negative n d) = magnitudeOfRatio n d % 2 ^ 52 := by
  have hle := magnitudeOfRatio_le (n := n) (d := d)
  simp only [signBit, expField, fracField, toNat_ofRatio]
  generalize magnitudeOfRatio n d = m at hle ⊢
  simp only [infinityMagnitude] at hle
  cases negative
  · simp
    omega
  · simp
    omega

/-- A significand below the hidden bit has the lowest place; one with a bit more is the
next power of two. -/
theorem units_of_magnitude {w : Word} {m place sig : Nat} (hexp : expField w = m / 2 ^ 52)
    (hfrac : fracField w = m % 2 ^ 52) (hm : m = place * 2 ^ 52 + sig) (hle : sig ≤ 2 ^ 53)
    (hge : 0 < place → 2 ^ 52 ≤ sig) : units w = sig * 2 ^ place := by
  subst hm
  rcases Nat.lt_or_ge sig (2 ^ 52) with hlt | hnormal
  · obtain rfl : place = 0 := by omega
    simp only [units, hexp, hfrac]
    rw [if_pos (by omega)]
    omega
  · rcases hle.lt_or_eq with hlt | rfl
    · have he : expField w = place + 1 := by omega
      have hf : fracField w = sig - 2 ^ 52 := by omega
      simp [units, he, hf]
      omega
    · have he : expField w = place + 2 := by omega
      have hf : fracField w = 0 := by omega
      simp only [units, he, hf]
      rw [if_neg (by omega), show place + 2 - 1 = place + 1 by omega, pow_succ]
      omega

/-- A finite word is a multiple of the place, or below every significand of it. -/
theorem units_of_place (w : Word) (place : Nat) :
    2 ^ place ∣ units w ∨ 0 < place ∧ units w < 2 ^ 52 * 2 ^ place := by
  have hfrac := fracField_lt w
  simp only [units]
  split
  · rcases Nat.eq_zero_or_pos place with rfl | hpos
    · exact .inl (one_dvd _)
    · exact .inr ⟨hpos, hfrac.trans_le (Nat.le_mul_of_pos_right _ (Nat.two_pow_pos _))⟩
  · rcases Nat.lt_or_ge (expField w - 1) place with hlt | hge
    · refine .inr ⟨by omega, ?_⟩
      have hpow : 2 ^ (expField w - 1 + 1) ≤ 2 ^ place := Nat.pow_le_pow_right (by decide) hlt
      rw [pow_succ] at hpow
      calc (2 ^ 52 + fracField w) * 2 ^ (expField w - 1)
          < (2 ^ 52 * 2) * 2 ^ (expField w - 1) :=
            Nat.mul_lt_mul_of_pos_right (by omega) (Nat.two_pow_pos _)
        _ = 2 ^ 52 * (2 ^ (expField w - 1) * 2) := by ring
        _ ≤ 2 ^ 52 * 2 ^ place := Nat.mul_le_mul_left _ hpow
    · exact .inl (Dvd.dvd.mul_left (Nat.pow_dvd_pow 2 hge) _)

theorem significand_nearest (hd : 0 < d) (k : Nat) :
    ((significand n d * (d * 2 ^ placeOf n d : Nat) : Int) - (n * unitsPerOne : Nat)).natAbs <
        ((k * (d * 2 ^ placeOf n d : Nat) : Int) - (n * unitsPerOne : Nat)).natAbs ∨
      ((significand n d * (d * 2 ^ placeOf n d : Nat) : Int) - (n * unitsPerOne : Nat)).natAbs =
          ((k * (d * 2 ^ placeOf n d : Nat) : Int) - (n * unitsPerOne : Nat)).natAbs ∧
        (k = significand n d ∨ significand n d % 2 = 0) :=
  roundDiv_nearest (Nat.mul_pos hd (Nat.two_pow_pos _))

theorem ofRatio_correctlyRounded (negative : Bool) (hd : 0 < d) :
    CorrectlyRounded negative n d (ofRatio negative n d) := by
  have hsig : magnitudeOfRatio n d =
      min infinityMagnitude (placeOf n d * 2 ^ 52 + significand n d) := rfl
  have ⟨hsign, hexp, hfrac⟩ := fields_ofRatio (n := n) (d := d) negative
  have hbelow (h : n * unitsPerOne < overflowUnits * d) : magnitudeOfRatio n d =
      placeOf n d * 2 ^ 52 + significand n d := by
    rw [hsig, Nat.min_eq_right (magnitude_lt hd h).le]
  constructor
  case sign => exact hsign
  case infinite =>
    intro h
    rw [hexp, hfrac, hsig, Nat.min_eq_left (le_magnitude hd h)]
    decide
  case finite =>
    intro h
    have hlt := magnitude_lt hd h
    rw [← hbelow h] at hlt
    rw [hexp]
    generalize magnitudeOfRatio n d = m at hlt
    clear h
    simp only [infinityMagnitude] at hlt
    omega
  case nearest =>
    intro h w' _
    have hunits : units (ofRatio negative n d) = significand n d * 2 ^ placeOf n d :=
      units_of_magnitude hexp hfrac (hbelow h) (significand_le hd) (le_significand hd)
    have hparity : fracField (ofRatio negative n d) % 2 = significand n d % 2 := by
      rw [hfrac, hbelow h]
      omega
    have hscale (k : Nat) : (k * 2 ^ placeOf n d : Nat) * (d : Int) =
        k * (d * 2 ^ placeOf n d : Nat) := by
      push_cast
      ring
    simp only [distance, hunits, hparity, hscale]
    rcases units_of_place w' (placeOf n d) with ⟨k, hk⟩ | ⟨hplace, hlow⟩
    · rw [Nat.mul_comm] at hk
      simp only [hk, hscale]
      exact (significand_nearest hd k).imp_right (And.imp_right (Or.imp_left (congrArg (· * _))))
    · -- below every significand of this place the least of them is nearer
      have hleast : 2 ^ 52 * (d * 2 ^ placeOf n d) ≤ n * unitsPerOne := by
        rw [show 2 ^ 52 * (d * 2 ^ placeOf n d) = 2 ^ (52 + placeOf n d) * d by ring]
        exact units_le_of_place hplace
      have hfar : units w' * d < 2 ^ 52 * (d * 2 ^ placeOf n d) := by
        rw [show 2 ^ 52 * (d * 2 ^ placeOf n d) = 2 ^ 52 * 2 ^ placeOf n d * d by ring]
        exact Nat.mul_lt_mul_of_pos_right hlow hd
      have hnear := significand_nearest (n := n) hd (2 ^ 52)
      generalize (significand n d * (d * 2 ^ placeOf n d : Nat) : Int) = nearest at hnear ⊢
      rw [← Nat.cast_mul] at hnear ⊢
      generalize 2 ^ 52 * (d * 2 ^ placeOf n d) = least at hleast hfar hnear
      generalize units w' * d = far at hfar ⊢
      generalize n * unitsPerOne = ratio at hleast hnear ⊢
      omega

/-! ### Machine integers -/

theorem roundDiv_mul_right (hk : 0 < k) : roundDiv (n * k) (d * k) = roundDiv n d := by
  have hhalf (r : Nat) : 2 * (r * k) = 2 * r * k := (Nat.mul_assoc ..).symm
  simp only [roundDiv, Nat.mul_div_mul_right _ _ hk, Nat.mul_mod_mul_right, hhalf,
    Nat.mul_lt_mul_right hk, Nat.mul_left_inj hk.ne']

theorem roundDiv_mul_self (hd : 0 < d) : roundDiv (k * d) d = k := by
  simp [roundDiv, Nat.mul_div_cancel _ hd, hd.ne]

theorem log2_mul_two_pow {m : Nat} (hm : m ≠ 0) (e : Nat) : (m * 2 ^ e).log2 = m.log2 + e := by
  have hpos := Nat.two_pow_pos e
  refine (Nat.log2_eq_iff (Nat.mul_ne_zero hm hpos.ne')).mpr ⟨?_, ?_⟩
  · rw [Nat.pow_add]
    exact Nat.mul_le_mul_right _ (Nat.log2_self_le hm)
  · rw [Nat.add_right_comm, Nat.pow_add]
    exact Nat.mul_lt_mul_of_pos_right Nat.lt_log2_self hpos

theorem placeOf_nat {m : Nat} (hm : m ≠ 0) : placeOf m 1 = m.log2 + unitExponent - 52 := by
  rw [placeOf, Nat.div_one, unitsPerOne, log2_mul_two_pow hm]

/-- The significand of a natural number: exact below `2 ^ 53`, and else rounded in its own
last place. -/
theorem significand_nat {m : Nat} (hm : m ≠ 0) : significand m 1 =
    if m.log2 ≤ 52 then m * 2 ^ (52 - m.log2) else Binary32.roundShift m (m.log2 - 52) := by
  have hunit : 52 ≤ unitExponent := by decide
  rw [significand, placeOf_nat hm, Nat.one_mul, unitsPerOne]
  generalize unitExponent = u at hunit
  split_ifs with hsmall
  · rw [show m * 2 ^ u = m * 2 ^ (52 - m.log2) * 2 ^ (m.log2 + u - 52) by
      rw [Nat.mul_assoc, ← Nat.pow_add]
      congr 2
      omega]
    exact roundDiv_mul_self (Nat.two_pow_pos _)
  · rw [show m.log2 + u - 52 = (m.log2 - 52) + u by omega, Nat.pow_add,
      roundDiv_mul_right (Nat.two_pow_pos _)]
    rfl

theorem ofInt_eq_ofRatio {m : Nat} (h : m < 2 ^ 64) : ofInt m = ofRatio false m 1 := by
  have hmagnitude : magnitudeOfNat m = magnitudeOfRatio m 1 := by
    rcases Nat.eq_zero_or_pos m with rfl | hpos
    · decide +kernel
    · have hlog : m.log2 ≤ 63 := Nat.lt_succ_iff.mp ((Nat.log2_lt hpos.ne').mpr h)
      have hle := significand_le (n := m) Nat.one_pos
      have hplace : placeOf m 1 = m.log2 + 1022 := by
        rw [placeOf_nat hpos.ne', unitExponent]
        omega
      have hmin : magnitudeOfRatio m 1 = (m.log2 + 1022) * 2 ^ 52 + significand m 1 := by
        rw [magnitudeOfRatio, ← significand, hplace]
        generalize significand m 1 = sig at hle
        simp only [infinityMagnitude]
        omega
      rw [hmin, significand_nat hpos.ne', magnitudeOfNat, if_neg hpos.ne']
      split_ifs <;> rfl
  have hnonneg : ¬ (m : Int) < 0 := by omega
  simp [ofInt, ofRatio, hnonneg, hmagnitude]

end Binary64
