import Luatier.Lib.Rearrange
import Luatier.Stdlib.Sort

/-!
# What the quicksort does

The indices stay in the range whatever the comparison answers, since a scan that
leaves it is an error; with a strict weak order no scan does.
-/

namespace Luatier.TableLib

open Cells Rearrange

variable {W : Type} {host : Host W} {t cmp : TValue} {n : ℕ}
  {elem : Process W → ℕ → TValue} {Good : Process W → Prop} {Fails : Fault → Process W → Prop}
  {ordered : Prop} {lt : TValue → TValue → Prop} {S : TValue → Prop}

structure Sortable (host : Host W) (t cmp : TValue) (n : ℕ) (elem : Process W → ℕ → TValue)
    (Good : Process W → Prop) (Fails : Fault → Process W → Prop) (ordered : Prop)
    (lt : TValue → TValue → Prop) (S : TValue → Prop) : Prop where
  size : n < 2 ^ 31
  compare : ∀ {q} {i j : UInt32}, Good q → 1 ≤ i.toNat ∧ i.toNat ≤ n →
    1 ≤ j.toNat ∧ j.toNat ≤ n → Ends (sortCompIdx host t cmp i j) q
      (fun b q' => Good q' ∧ elem q' = elem q ∧
        (ordered → (b = true ↔ lt (elem q i.toNat) (elem q j.toNat)))) Fails
  swap : ∀ {q} {i j : UInt32}, Good q → 1 ≤ i.toNat ∧ i.toNat ≤ n →
    1 ≤ j.toNat ∧ j.toNat ≤ n → Returns (sortSwap host t i j) q
      fun _ q' => Good q' ∧ elem q' = elem q ∘ Equiv.swap i.toNat j.toNat
  random : ∀ {q} {world : W}, Good q → Good { q with world } ∧
    elem { q with world } = elem q
  invalid : ∀ {q}, ¬ ordered → Good q →
    Fails (.panic "invalid order function for sorting") q
  member : ∀ {q i}, ordered → Good q → 1 ≤ i ∧ i ≤ n → S (elem q i)
  weak : ordered → Weak lt S

/-! ## Indices -/

theorem toNat_next {i : UInt32} (h : i.toNat < 2 ^ 31) : (i + 1).toNat = i.toNat + 1 := by
  rw [UInt32.toNat_add]
  simp
  omega

theorem toNat_prev {i : UInt32} (h : 1 ≤ i.toNat) : (i - 1).toNat = i.toNat - 1 := by
  rw [UInt32.toNat_sub_of_le]
  · rfl
  · rwa [UInt32.le_iff_toNat_le]

theorem toNat_gap {lo up : UInt32} (h : lo.toNat ≤ up.toNat) :
    (up - lo).toNat = up.toNat - lo.toNat :=
  UInt32.toNat_sub_of_le _ _ (UInt32.le_iff_toNat_le.mpr h)

theorem pivotIndex_between {lo up : UInt32} (rnd : UInt32) (hlt : lo.toNat + 2 ≤ up.toNat)
    (hup : up.toNat < 2 ^ 31) :
    lo.toNat < (pivotIndex lo up rnd).toNat ∧ (pivotIndex lo up rnd).toNat < up.toNat := by
  have hgap : (up - lo).toNat = up.toNat - lo.toNat := toNat_gap (by omega)
  have hlimit : ranLimit.toNat = 100 := rfl
  unfold pivotIndex
  split
  · rw [UInt32.toNat_div, UInt32.toNat_add]
    simp
    omega
  · rename_i hfar
    have hwide : ¬ (up - lo).toNat < 100 := fun h =>
      hfar (Or.inl (UInt32.lt_iff_toNat_lt.mpr h))
    have hquarter : ((up - lo) / 4).toNat = (up.toNat - lo.toNat) / 4 := by
      rw [UInt32.toNat_div, hgap]
      rfl
    have hhalf : ((up - lo) / 4 * 2).toNat = (up.toNat - lo.toNat) / 4 * 2 := by
      rw [UInt32.toNat_mul, hquarter]
      simp
      omega
    have hmod : (rnd % ((up - lo) / 4 * 2)).toNat < (up.toNat - lo.toNat) / 4 * 2 := by
      rw [UInt32.toNat_mod, hhalf]
      apply Nat.mod_lt
      omega
    unfold choosePivot
    rw [UInt32.toNat_add, UInt32.toNat_add, hquarter, Nat.mod_eq_of_lt (a := lo.toNat + _)
      (by omega), Nat.mod_eq_of_lt (by omega)]
    omega

/-! ## The scans -/

section

variable {up i j : UInt32} {q : Process W} {fuel : ℕ}

theorem scanUp_spec (hs : Sortable host t cmp n elem Good Fails ordered lt S) (hup : up.toNat ≤ n)
    {f : ℕ → TValue} : ∀ {fuel i q}, Good q → elem q = f → i.toNat + 1 < up.toNat →
      up.toNat ≤ fuel + i.toNat + 1 → Ends (scanUp host t cmp up fuel i) q
        (fun r q' => Good q' ∧ elem q' = f ∧ i.toNat < r.toNat ∧ r.toNat < up.toNat ∧
          (ordered → (∀ k, i.toNat < k → k < r.toNat → ¬ lt (f (up.toNat - 1)) (f k)) ∧
            ¬ lt (f r.toNat) (f (up.toNat - 1)))) Fails := by
  have hsize := hs.size
  intro fuel
  induction fuel with
  | zero =>
      intro i q _ _ hi hfuel
      omega
  | succ fuel ih =>
      intro i q hq helem hi hfuel
      have hnext : (i + 1).toNat = i.toNat + 1 := toNat_next (by omega)
      have hpivot : (up - 1).toNat = up.toNat - 1 := toNat_prev (by omega)
      rw [scanUp]
      apply (hs.compare (i := i + 1) (j := up - 1) hq (by omega) (by omega)).bind
      rintro b q' ⟨hq', helem', hlt⟩
      rw [helem, hnext, hpivot] at hlt
      rw [helem] at helem'
      cases b with
      | true =>
          simp only [true_iff] at hlt
          by_cases hend : i + 1 = up - 1
          · -- an element that is less than itself
            have heq : i.toNat + 1 = up.toNat - 1 := by rw [← hnext, hend, hpivot]
            simp only [if_true, hend]
            apply ends_throw
            apply hs.invalid _ hq'
            intro hord
            have hself := hlt hord
            rw [heq] at hself
            have hmem := hs.member (i := up.toNat - 1) hord hq (by omega)
            rw [helem] at hmem
            exact (hs.weak hord).asymm hmem hmem hself hself
          · have hne : (i + 1).toNat ≠ (up - 1).toNat := fun h => hend (UInt32.toNat_inj.mp h)
            simp only [if_true, hend, if_false]
            apply (ih hq' helem' (by omega) (by omega)).mono _ fun _ _ => id
            rintro r q'' ⟨hq'', helem'', hr, hrup, hscan⟩
            refine ⟨hq'', helem'', by omega, hrup, fun hord => ⟨?_, (hscan hord).2⟩⟩
            intro k hk hkr
            by_cases hfirst : k = i.toNat + 1
            · have hmem := hs.member (i := up.toNat - 1) hord hq (by omega)
              have hmem' := hs.member (i := i.toNat + 1) hord hq (by omega)
              rw [helem] at hmem hmem'
              rw [hfirst]
              exact (hs.weak hord).asymm hmem' hmem (hlt hord)
            · exact (hscan hord).1 k (by omega) hkr
      | false =>
          simp only [Bool.false_eq_true, if_false, false_iff] at hlt ⊢
          refine ends_pure ⟨hq', helem', by omega, by omega, fun hord => ⟨?_, ?_⟩⟩
          · intro k hk hkr
            omega
          · rw [hnext]
            exact hlt hord

theorem scanDown_spec (hs : Sortable host t cmp n elem Good Fails ordered lt S)
    (hup : up.toNat ≤ n) (hi : i.toNat < up.toNat) {lo : ℕ} (hlo : 1 ≤ lo) (hloi : lo < i.toNat)
    {f : ℕ → TValue}
    (hleft : ordered → ∀ k, lo ≤ k → k < i.toNat → ¬ lt (f (up.toNat - 1)) (f k)) :
    ∀ {fuel j q}, Good q → elem q = f → lo < j.toNat → j.toNat < up.toNat → 1 ≤ fuel →
      j.toNat < fuel + i.toNat → Ends (scanDown host t cmp up i fuel j) q
        (fun r q' => Good q' ∧ elem q' = f ∧ lo ≤ r.toNat ∧ r.toNat < j.toNat ∧
          (ordered → (∀ k, r.toNat < k → k < j.toNat → ¬ lt (f k) (f (up.toNat - 1))) ∧
            ¬ lt (f (up.toNat - 1)) (f r.toNat))) Fails := by
  have hsize := hs.size
  intro fuel
  induction fuel with
  | zero =>
      intro j q _ _ _ _ hfuel
      omega
  | succ fuel ih =>
      intro j q hq helem hj hjup _ hfuel
      have hprev : (j - 1).toNat = j.toNat - 1 := toNat_prev (by omega)
      have hpivot : (up - 1).toNat = up.toNat - 1 := toNat_prev (by omega)
      rw [scanDown]
      apply (hs.compare (i := up - 1) (j := j - 1) hq (by omega) (by omega)).bind
      rintro b q' ⟨hq', helem', hlt⟩
      rw [helem, hprev, hpivot] at hlt
      rw [helem] at helem'
      cases b with
      | true =>
          simp only [true_iff] at hlt
          by_cases hend : j - 1 < i
          · -- the element was found not to be greater
            simp only [if_true, hend]
            apply ends_throw
            apply hs.invalid _ hq'
            intro hord
            rw [UInt32.lt_iff_toNat_lt, hprev] at hend
            exact hleft hord (j.toNat - 1) (by omega) hend (hlt hord)
          · have hge : ¬ (j - 1).toNat < i.toNat := fun h => hend (UInt32.lt_iff_toNat_lt.mpr h)
            simp only [if_true, hend, if_false]
            apply (ih hq' helem' (by omega) (by omega) (by omega) (by omega)).mono _
              fun _ _ => id
            rintro r q'' ⟨hq'', helem'', hr, hrj, hscan⟩
            refine ⟨hq'', helem'', hr, by omega, fun hord => ⟨?_, (hscan hord).2⟩⟩
            intro k hrk hkj
            by_cases hfirst : k = j.toNat - 1
            · have hmem := hs.member (i := up.toNat - 1) hord hq (by omega)
              have hmem' := hs.member (i := j.toNat - 1) hord hq (by omega)
              rw [helem] at hmem hmem'
              rw [hfirst]
              exact (hs.weak hord).asymm hmem hmem' (hlt hord)
            · exact (hscan hord).1 k hrk (by omega)
      | false =>
          simp only [Bool.false_eq_true, if_false, false_iff] at hlt ⊢
          refine ends_pure ⟨hq', helem', by omega, by omega, fun hord => ⟨?_, ?_⟩⟩
          · intro k hrk hkj
            omega
          · rw [hprev]
            exact hlt hord

/-! ## The partition -/

/-- The elements up to `i` are not greater than the pivot, those from `j` on not less. -/
structure Parted (lt : TValue → TValue → Prop) (lo up i j : ℕ) (f : ℕ → TValue) : Prop where
  left : ∀ k, lo ≤ k → k ≤ i → ¬ lt (f (up - 1)) (f k)
  right : ∀ k, j ≤ k → k ≤ up → ¬ lt (f k) (f (up - 1))

theorem Parted.swap {lo up i j i' j' : ℕ} {f : ℕ → TValue} (h : Parted lt lo up i j f)
    (hup : ∀ k, i < k → k < i' → ¬ lt (f (up - 1)) (f k)) (hi : ¬ lt (f i') (f (up - 1)))
    (hdown : ∀ k, j' < k → k < j → ¬ lt (f k) (f (up - 1)))
    (hj : ¬ lt (f (up - 1)) (f j')) (hle : i' ≤ j') (hlt : j' < up - 1) :
    Parted lt lo up i' j' (f ∘ Equiv.swap i' j') := by
  have hpivot : (f ∘ Equiv.swap i' j') (up - 1) = f (up - 1) := by
    rw [Function.comp_apply, Equiv.swap_apply_of_ne_of_ne (by omega) (by omega)]
  constructor
  · intro k hk hki
    rw [hpivot]
    rcases Nat.eq_or_lt_of_le hki with rfl | hlt
    · simpa using hj
    · rw [Function.comp_apply, Equiv.swap_apply_of_ne_of_ne (by omega) (by omega)]
      by_cases hold : k ≤ i
      · exact h.left k hk hold
      · exact hup k (by omega) hlt
  · intro k hk hkup
    rw [hpivot]
    rcases Nat.eq_or_lt_of_le hk with rfl | hlt
    · simpa using hi
    · rw [Function.comp_apply, Equiv.swap_apply_of_ne_of_ne (by omega) (by omega)]
      by_cases hold : j ≤ k
      · exact h.right k hold hkup
      · exact hdown k hlt (by omega)

theorem Parted.split {lo up i j i' j' : ℕ} {f : ℕ → TValue} (h : Parted lt lo up i j f)
    (hup : ∀ k, i < k → k < i' → ¬ lt (f (up - 1)) (f k)) (hi : ¬ lt (f i') (f (up - 1)))
    (hdown : ∀ k, j' < k → k < j → ¬ lt (f k) (f (up - 1))) (hle : j' < i')
    (hlt : i' ≤ up - 1) : Split lt lo up i' (f ∘ Equiv.swap (up - 1) i') := by
  have hpivot : (f ∘ Equiv.swap (up - 1) i') i' = f (up - 1) := by simp
  constructor
  · intro k hk hki
    rw [hpivot, Function.comp_apply, Equiv.swap_apply_of_ne_of_ne (by omega) (by omega)]
    by_cases hold : k ≤ i
    · exact h.left k hk hold
    · exact hup k (by omega) hki
  · intro k hk hkup
    rw [hpivot]
    by_cases hlast : k = up - 1
    · rw [hlast]
      simpa using hi
    · rw [Function.comp_apply, Equiv.swap_apply_of_ne_of_ne hlast (by omega)]
      by_cases hold : j ≤ k
      · exact h.right k hold hkup
      · exact hdown k (by omega) (by omega)

theorem partitionLoop_spec (hs : Sortable host t cmp n elem Good Fails ordered lt S)
    (hup : up.toNat ≤ n) {lo : ℕ} (hlo : 1 ≤ lo) : ∀ {fuel i j q} {f : ℕ → TValue}, Good q →
      elem q = f → lo ≤ i.toNat → i.toNat + 1 < up.toNat → lo < j.toNat → j.toNat < up.toNat →
      up.toNat ≤ fuel + i.toNat → (ordered → Parted lt lo up.toNat i.toNat j.toNat f) →
      Ends (partitionLoop host t cmp up fuel i j) q
        (fun r q' => Good q' ∧ Rearranged lo up.toNat f (elem q') ∧ lo < r.toNat ∧
          r.toNat < up.toNat ∧ (ordered → Split lt lo up.toNat r.toNat (elem q'))) Fails := by
  have hsize := hs.size
  intro fuel
  induction fuel with
  | zero =>
      intro i j q f _ _ _ _ _ _ hfuel
      omega
  | succ fuel ih =>
      intro i j q f hq helem hi hiup hj hjup hfuel hparted
      have hpivot : (up - 1).toNat = up.toNat - 1 := toNat_prev (by omega)
      rw [partitionLoop]
      apply (scanUp_spec hs hup hq helem hiup (by omega)).bind
      rintro i' q₁ ⟨hq₁, helem₁, hii, hiup', hscanUp⟩
      have hleft : ordered → ∀ k, lo ≤ k → k < i'.toNat → ¬ lt (f (up.toNat - 1)) (f k) := by
        intro hord k hk hki
        by_cases hold : k ≤ i.toNat
        · exact (hparted hord).left k hk hold
        · exact (hscanUp hord).1 k (by omega) hki
      apply (scanDown_spec hs hup hiup' hlo (by omega) hleft hq₁ helem₁ hj hjup (by omega)
        (by omega)).bind
      rintro j' q₂ ⟨hq₂, helem₂, hjlo, hjj, hscanDown⟩
      by_cases hmet : j' < i'
      · simp only [if_pos hmet]
        rw [UInt32.lt_iff_toNat_lt] at hmet
        apply ((hs.swap (i := up - 1) (j := i') hq₂ (by omega) (by omega)).ends).bind
        rintro _ q₃ ⟨hq₃, helem₃⟩
        rw [helem₂, hpivot] at helem₃
        refine ends_pure ⟨hq₃, ?_, by omega, hiup', fun hord => ?_⟩
        · rw [helem₃]
          exact .swap (by omega) (by omega) f
        · rw [helem₃]
          exact (hparted hord).split (hscanUp hord).1 (hscanUp hord).2 (hscanDown hord).1 hmet
            (by omega)
      · simp only [if_neg hmet]
        rw [UInt32.lt_iff_toNat_lt] at hmet
        apply ((hs.swap (i := i') (j := j') hq₂ (by omega) (by omega)).ends).bind
        rintro _ q₃ ⟨hq₃, helem₃⟩
        rw [helem₂] at helem₃
        have hparted' : ordered → Parted lt lo up.toNat i'.toNat j'.toNat
            (f ∘ Equiv.swap i'.toNat j'.toNat) := fun hord =>
          (hparted hord).swap (hscanUp hord).1 (hscanUp hord).2 (hscanDown hord).1
            (hscanDown hord).2 (by omega) (by omega)
        apply (ih hq₃ helem₃ (by omega) (by omega) (by omega) (by omega) (by omega)
          hparted').mono _ fun _ _ => id
        rintro r q₄ ⟨hq₄, hmoved, hr, hrup, hsplit⟩
        refine ⟨hq₄, ?_, hr, hrup, hsplit⟩
        exact (Rearranged.swap (by omega) (by omega) f).trans hmoved

/-! ## The sort -/

theorem sortEnds_spec (hs : Sortable host t cmp n elem Good Fails ordered lt S)
    {lo : UInt32} {f : ℕ → TValue} (hlo : 1 ≤ lo.toNat) (hlt : lo.toNat < up.toNat)
    (hup : up.toNat ≤ n) (hq : Good q) (helem : elem q = f) :
    Ends (sortEnds host t cmp lo up) q
      (fun _ q' => Good q' ∧ Rearranged lo.toNat up.toNat f (elem q') ∧
        (ordered → ¬ lt (elem q' up.toNat) (elem q' lo.toNat))) Fails := by
  apply (hs.compare (i := up) (j := lo) hq (by omega) (by omega)).bind
  rintro b q₁ ⟨hq₁, helem₁, htells⟩
  have hmem : ordered → S (f lo.toNat) ∧ S (f up.toNat) := by
    intro hord
    rw [← helem]
    exact ⟨hs.member hord hq (by omega), hs.member hord hq (by omega)⟩
  rw [helem] at htells helem₁
  cases b with
  | true =>
      simp only [true_iff, if_true] at htells ⊢
      apply (hs.swap (i := lo) (j := up) hq₁ (by omega) (by omega)).mono _ fun _ _ => False.elim
      rintro _ q₂ ⟨hq₂, helem₂⟩
      rw [helem₁] at helem₂
      refine ⟨hq₂, ?_, fun hord => ?_⟩
      · rw [helem₂]
        exact .swap (by omega) (by omega) f
      · rw [helem₂]
        simp only [Function.comp_apply, Equiv.swap_apply_left, Equiv.swap_apply_right]
        exact (hs.weak hord).asymm (hmem hord).2 (hmem hord).1 (htells hord)
  | false =>
      simp only [Bool.false_eq_true, if_false, false_iff] at htells ⊢
      refine ends_pure ⟨hq₁, ?_, fun hord => ?_⟩
      · rw [helem₁]
        exact .refl _ _ f
      · rw [helem₁]
        exact htells hord

theorem sortThree_spec (hs : Sortable host t cmp n elem Good Fails ordered lt S)
    {lo p : UInt32} {f : ℕ → TValue} (hlo : 1 ≤ lo.toNat) (hlop : lo.toNat < p.toNat)
    (hpup : p.toNat < up.toNat) (hup : up.toNat ≤ n) (hq : Good q) (helem : elem q = f)
    (hends : ordered → ¬ lt (f up.toNat) (f lo.toNat)) :
    Ends (sortThree host t cmp lo up p) q
      (fun _ q' => Good q' ∧ Rearranged lo.toNat up.toNat f (elem q') ∧
        (ordered → ¬ lt (elem q' p.toNat) (elem q' lo.toNat) ∧
          ¬ lt (elem q' up.toNat) (elem q' p.toNat))) Fails := by
  have hmem : ordered → ∀ i, 1 ≤ i ∧ i ≤ n → S (f i) := by
    intro hord i hi
    rw [← helem]
    exact hs.member hord hq hi
  apply (hs.compare (i := p) (j := lo) hq (by omega) (by omega)).bind
  rintro b q₁ ⟨hq₁, helem₁, hlt⟩
  rw [helem] at hlt helem₁
  cases b with
  | true =>
      simp only [true_iff, if_true] at hlt ⊢
      apply (hs.swap (i := p) (j := lo) hq₁ (by omega) (by omega)).mono _ fun _ _ => False.elim
      rintro _ q₂ ⟨hq₂, helem₂⟩
      rw [helem₁] at helem₂
      refine ⟨hq₂, ?_, fun hord => ?_⟩
      · rw [helem₂]
        exact .swap (by omega) (by omega) f
      · have hother : (f ∘ Equiv.swap p.toNat lo.toNat) up.toNat = f up.toNat := by
          rw [Function.comp_apply, Equiv.swap_apply_of_ne_of_ne (by omega) (by omega)]
        rw [helem₂, hother]
        simp only [Function.comp_apply, Equiv.swap_apply_left, Equiv.swap_apply_right]
        exact ⟨(hs.weak hord).asymm (hmem hord _ (by omega)) (hmem hord _ (by omega)) (hlt hord),
          hends hord⟩
  | false =>
      simp only [Bool.false_eq_true, if_false, false_iff] at hlt ⊢
      apply (hs.compare (i := up) (j := p) hq₁ (by omega) (by omega)).bind
      rintro b q₂ ⟨hq₂, helem₂, hlt'⟩
      rw [helem₁] at hlt' helem₂
      cases b with
      | true =>
          simp only [true_iff, if_true] at hlt' ⊢
          apply (hs.swap (i := p) (j := up) hq₂ (by omega) (by omega)).mono _
            fun _ _ => False.elim
          rintro _ q₃ ⟨hq₃, helem₃⟩
          rw [helem₂] at helem₃
          refine ⟨hq₃, ?_, fun hord => ?_⟩
          · rw [helem₃]
            exact .swap (by omega) (by omega) f
          · have hother : (f ∘ Equiv.swap p.toNat up.toNat) lo.toNat = f lo.toNat := by
              rw [Function.comp_apply, Equiv.swap_apply_of_ne_of_ne (by omega) (by omega)]
            rw [helem₃, hother]
            simp only [Function.comp_apply, Equiv.swap_apply_left, Equiv.swap_apply_right]
            exact ⟨hends hord, (hs.weak hord).asymm (hmem hord _ (by omega))
              (hmem hord _ (by omega)) (hlt' hord)⟩
      | false =>
          simp only [Bool.false_eq_true, if_false, false_iff] at hlt' ⊢
          refine ends_pure ⟨hq₂, ?_, fun hord => ?_⟩
          · rw [helem₂]
            exact .refl _ _ f
          · rw [helem₂]
            exact ⟨hlt hord, hlt' hord⟩

theorem nextRandom_spec (hs : Sortable host t cmp n elem Good Fails ordered lt S) (hq : Good q)
    (lo up count rnd : UInt32) : Returns (nextRandom host lo up count rnd) q
      fun _ q' => Good q' ∧ elem q' = elem q := by
  apply ends_ite
  · intro _
    exact hs.random hq
  · intro _
    exact ends_pure ⟨hq, rfl⟩

structure Sorted (elem : Process W → ℕ → TValue) (Good : Process W → Prop) (ordered : Prop)
    (lt : TValue → TValue → Prop) (lo up : ℕ) (f : ℕ → TValue) (q : Process W) : Prop where
  good : Good q
  rearranged : Rearranged lo up f (elem q)
  ordered : ordered → Ordered lt lo up (elem q)

theorem sortPartition_spec (hs : Sortable host t cmp n elem Good Fails ordered lt S)
    {lo p : UInt32} {f : ℕ → TValue} (hlo : 1 ≤ lo.toNat) (hlop : lo.toNat < p.toNat)
    (hpup : p.toNat < up.toNat) (hup : up.toNat ≤ n) (hlarge : lo.toNat + 2 < up.toNat)
    (hfuel : up.toNat - lo.toNat ≤ fuel) (hq : Good q) (helem : elem q = f)
    (hthree : ordered → ¬ lt (f p.toNat) (f lo.toNat) ∧ ¬ lt (f up.toNat) (f p.toNat)) :
    Ends (do
      sortSwap host t p (up - 1)
      sortPartition host t cmp fuel lo up) q
      (fun r q' => Good q' ∧ Rearranged lo.toNat up.toNat f (elem q') ∧ lo.toNat < r.toNat ∧
        r.toNat < up.toNat ∧ (ordered → Split lt lo.toNat up.toNat r.toNat (elem q')))
      Fails := by
  have hsize := hs.size
  have hprev : (up - 1).toNat = up.toNat - 1 := toNat_prev (by omega)
  apply ((hs.swap (i := p) (j := up - 1) hq (by omega) (by omega)).ends).bind
  rintro _ q₁ ⟨hq₁, helem₁⟩
  rw [helem, hprev] at helem₁
  have hparted : ordered → Parted lt lo.toNat up.toNat lo.toNat (up - 1).toNat
      (f ∘ Equiv.swap p.toNat (up.toNat - 1)) := by
    intro hord
    have hpivot : (f ∘ Equiv.swap p.toNat (up.toNat - 1)) (up.toNat - 1) = f p.toNat := by simp
    have hmem := hs.member (i := p.toNat) hord hq (by omega)
    rw [helem] at hmem
    constructor
    · intro k hk hklo
      obtain rfl : k = lo.toNat := by omega
      rw [hpivot, Function.comp_apply, Equiv.swap_apply_of_ne_of_ne (by omega) (by omega)]
      exact (hthree hord).1
    · intro k hk hkup
      rw [hpivot]
      by_cases hlast : k = up.toNat
      · rw [hlast, Function.comp_apply, Equiv.swap_apply_of_ne_of_ne (by omega) (by omega)]
        exact (hthree hord).2
      · obtain rfl : k = up.toNat - 1 := by omega
        rw [hpivot]
        exact fun hself => (hs.weak hord).asymm hmem hmem hself hself
  apply (partitionLoop_spec hs hup hlo hq₁ helem₁ (Nat.le_refl _) (by omega) (by omega)
    (by omega) (by omega) hparted).mono _ fun _ _ => id
  rintro r q₂ ⟨hq₂, hmoved, hr⟩
  exact ⟨hq₂, (Rearranged.swap (by omega) (by omega) f).trans hmoved, hr⟩

theorem Sorted.below_above (hs : Sortable host t cmp n elem Good Fails ordered lt S)
    {lo hi p up : ℕ} {f : ℕ → TValue} {q₁ q₂ : Process W} (hlo : 1 ≤ lo) (hup : up ≤ n)
    (hp : lo < p ∧ p < up) (hhi : p = hi + 1) (hsplit : ordered → Split lt lo up p f)
    (hlow : Sorted elem Good ordered lt lo hi f q₁)
    (hhigh : Sorted elem Good ordered lt (p + 1) up (elem q₁) q₂) :
    Sorted elem Good ordered lt lo up f q₂ where
  good := hhigh.good
  rearranged := (hlow.rearranged.widen (Nat.le_refl _) (by omega)).trans
    (hhigh.rearranged.widen (by omega) (Nat.le_refl _))
  ordered := by
    intro hord
    apply (((hsplit hord).below hhi hlow.rearranged).above hhigh.rearranged).ordered
      (hs.weak hord) ?_ (by omega) hhi ?_ (hhigh.ordered hord)
    · intro i hi
      exact hs.member hord hhigh.good (by omega)
    · apply (hlow.ordered hord).congr
      intro i hi hip
      exact hhigh.rearranged.outside (by omega)

theorem Sorted.above_below (hs : Sortable host t cmp n elem Good Fails ordered lt S)
    {lo hi p up : ℕ} {f : ℕ → TValue} {q₁ q₂ : Process W} (hlo : 1 ≤ lo) (hup : up ≤ n)
    (hp : lo < p ∧ p < up) (hhi : p = hi + 1) (hsplit : ordered → Split lt lo up p f)
    (hhigh : Sorted elem Good ordered lt (p + 1) up f q₁)
    (hlow : Sorted elem Good ordered lt lo hi (elem q₁) q₂) :
    Sorted elem Good ordered lt lo up f q₂ where
  good := hlow.good
  rearranged := (hhigh.rearranged.widen (by omega) (Nat.le_refl _)).trans
    (hlow.rearranged.widen (Nat.le_refl _) (by omega))
  ordered := by
    intro hord
    apply (((hsplit hord).above hhigh.rearranged).below hhi hlow.rearranged).ordered
      (hs.weak hord) ?_ (by omega) hhi (hlow.ordered hord) ?_
    · intro i hi
      exact hs.member hord hlow.good (by omega)
    · apply (hhigh.ordered hord).congr
      intro i hi hip
      exact hlow.rearranged.outside (by omega)

theorem Sorted.after {lo up : ℕ} {f g : ℕ → TValue} (hfg : Rearranged lo up f g)
    (h : Sorted elem Good ordered lt lo up g q) : Sorted elem Good ordered lt lo up f q :=
  ⟨h.good, hfg.trans h.rearranged, h.ordered⟩

theorem auxsort_spec (hs : Sortable host t cmp n elem Good Fails ordered lt S) :
    ∀ {fuel} {lo up rnd : UInt32} {q}, Good q → 1 ≤ lo.toNat → up.toNat ≤ n →
      up.toNat - lo.toNat < fuel → Ends (auxsort host t cmp fuel lo up rnd) q
        (fun _ q' => Sorted elem Good ordered lt lo.toNat up.toNat (elem q) q') Fails := by
  have hsize := hs.size
  intro fuel
  induction fuel with
  | zero =>
      intro lo up rnd q _ _ _ hfuel
      omega
  | succ fuel ih =>
      intro lo up rnd q hq hlo hup hfuel
      rw [auxsort]
      apply ends_ite
      · intro hshort
        rw [UInt32.lt_iff_toNat_lt] at hshort
        exact ends_pure ⟨hq, .refl _ _ _, fun _ => .of_short (by omega)⟩
      intro hlong
      rw [Decidable.not_not, UInt32.lt_iff_toNat_lt] at hlong
      have hgap : (up - lo).toNat = up.toNat - lo.toNat := toNat_gap (by omega)
      have hone : (1 : UInt32).toNat = 1 := rfl
      have htwo : (2 : UInt32).toNat = 2 := rfl
      apply (sortEnds_spec hs hlo hlong hup hq rfl).bind
      rintro _ q₁ ⟨hq₁, hmoved₁, hends⟩
      apply ends_ite
      · -- two elements
        intro hpair
        rw [← UInt32.toNat_inj, hgap, hone] at hpair
        refine ends_pure ⟨hq₁, hmoved₁, fun hord => ?_⟩
        intro i j hi hij hj
        obtain rfl : i = lo.toNat := by omega
        obtain rfl : j = up.toNat := by omega
        exact hends hord
      intro hpair
      rw [← UInt32.toNat_inj, hgap, hone] at hpair
      obtain ⟨hlop, hpup⟩ := @pivotIndex_between lo up rnd (by omega) (by omega)
      apply (sortThree_spec hs hlo hlop hpup hup hq₁ rfl hends).bind
      rintro _ q₂ ⟨hq₂, hmoved₂, hthree⟩
      apply ends_ite
      · -- three elements
        intro hthird
        rw [← UInt32.toNat_inj, hgap, htwo] at hthird
        refine ends_pure ⟨hq₂, hmoved₁.trans hmoved₂, fun hord => ?_⟩
        have hsplit : Split lt lo.toNat up.toNat (pivotIndex lo up rnd).toNat (elem q₂) := by
          constructor
          · intro i hi hip
            obtain rfl : i = lo.toNat := by omega
            exact (hthree hord).1
          · intro i hpi hi
            obtain rfl : i = up.toNat := by omega
            exact (hthree hord).2
        apply hsplit.ordered (q := lo.toNat) (hs.weak hord) _ (by omega) (by omega)
          (.of_short (by omega)) (.of_short (by omega))
        intro i hi
        exact hs.member hord hq₂ (by omega)
      intro hthird
      rw [← UInt32.toNat_inj, hgap, htwo] at hthird
      have hfuel' : up.toNat - lo.toNat ≤ fuel := by omega
      have hpart := sortPartition_spec hs hlo hlop hpup hup (by omega) hfuel' hq₂ rfl hthree
      rw [← bind_assoc]
      apply hpart.bind
      rintro r q₃ ⟨hq₃, hmoved₃, hlor, hrup, hsplit⟩
      have hmoved := (hmoved₁.trans hmoved₂).trans hmoved₃
      have hprev : (r - 1).toNat = r.toNat - 1 := toNat_prev (by omega)
      have hnext : (r + 1).toNat = r.toNat + 1 := toNat_next (by omega)
      apply ends_ite
      · intro _
        apply (ih hq₃ hlo (by omega) (by omega)).bind
        intro _ q₄ hlow
        apply (nextRandom_spec hs hlow.good _ _ _ _).ends.bind
        rintro rnd' q₅ ⟨hq₅, helem⟩
        apply (ih hq₅ (by omega) hup (by omega)).mono _ fun _ _ => id
        intro _ q₆ hhigh
        rw [helem, hnext] at hhigh
        rw [hprev] at hlow
        exact (hlow.below_above hs hlo hup ⟨hlor, hrup⟩ (by omega) hsplit hhigh).after hmoved
      · intro _
        apply (ih hq₃ (by omega) hup (by omega)).bind
        intro _ q₄ hhigh
        apply (nextRandom_spec hs hhigh.good _ _ _ _).ends.bind
        rintro rnd' q₅ ⟨hq₅, helem⟩
        apply (ih hq₅ hlo (by omega) (by omega)).mono _ fun _ _ => id
        intro _ q₆ hlow
        rw [helem, hprev] at hlow
        rw [hnext] at hhigh
        exact (hhigh.above_below hs hlo hup ⟨hlor, hrup⟩ (by omega) hsplit hlow).after hmoved

end

end Luatier.TableLib
