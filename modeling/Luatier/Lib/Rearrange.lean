import Mathlib.Data.Nat.Basic
import Mathlib.Logic.Equiv.Basic
import Mathlib.Order.Defs.Unbundled
import Mathlib.Tactic.Common

/-!
# Rearranging a range

What an algorithm that sorts in place does to positions from `lo` to `up`, and
when they are in order.
-/

namespace Rearrange

variable {α : Type} {lo up : ℕ} {f g h : ℕ → α}

/-- The positions from `lo` to `up` of `g` have what those of `f` have, in some order. -/
def Rearranged (lo up : ℕ) (f g : ℕ → α) : Prop :=
  ∃ σ : Equiv.Perm ℕ, (∀ i, ¬ (lo ≤ i ∧ i ≤ up) → σ i = i) ∧ g = f ∘ σ

namespace Rearranged

theorem refl (lo up : ℕ) (f : ℕ → α) : Rearranged lo up f f :=
  ⟨Equiv.refl ℕ, fun _ _ => rfl, rfl⟩

theorem trans (hfg : Rearranged lo up f g) (hgh : Rearranged lo up g h) :
    Rearranged lo up f h := by
  obtain ⟨σ, hσ, rfl⟩ := hfg
  obtain ⟨τ, hτ, rfl⟩ := hgh
  refine ⟨τ.trans σ, ?_, rfl⟩
  intro i hi
  simp [hτ i hi, hσ i hi]

theorem swap {i j : ℕ} (hi : lo ≤ i ∧ i ≤ up) (hj : lo ≤ j ∧ j ≤ up) (f : ℕ → α) :
    Rearranged lo up f (f ∘ Equiv.swap i j) := by
  refine ⟨Equiv.swap i j, ?_, rfl⟩
  intro k hk
  apply Equiv.swap_apply_of_ne_of_ne
  · rintro rfl
    exact hk hi
  · rintro rfl
    exact hk hj

theorem widen {lo' up' : ℕ} (hfg : Rearranged lo up f g) (hlo : lo' ≤ lo) (hup : up ≤ up') :
    Rearranged lo' up' f g := by
  obtain ⟨σ, hσ, rfl⟩ := hfg
  refine ⟨σ, ?_, rfl⟩
  intro i hi
  apply hσ
  omega

theorem outside (hfg : Rearranged lo up f g) {i : ℕ} (hi : ¬ (lo ≤ i ∧ i ≤ up)) :
    g i = f i := by
  obtain ⟨σ, hσ, rfl⟩ := hfg
  simp [hσ i hi]

theorem inside (hfg : Rearranged lo up f g) {i : ℕ} (hi : lo ≤ i ∧ i ≤ up) :
    ∃ j, (lo ≤ j ∧ j ≤ up) ∧ g i = f j := by
  obtain ⟨σ, hσ, rfl⟩ := hfg
  refine ⟨σ i, ?_, rfl⟩
  by_contra hout
  rw [σ.injective (hσ _ hout)] at hout
  exact hout hi

theorem transfer (hfg : Rearranged lo up f g) {P : α → Prop}
    (hf : ∀ i, lo ≤ i ∧ i ≤ up → P (f i)) : ∀ i, lo ≤ i ∧ i ≤ up → P (g i) := by
  intro i hi
  obtain ⟨j, hj, heq⟩ := hfg.inside hi
  rw [heq]
  exact hf j hj

end Rearranged

/-! ## Order -/

variable {lt : α → α → Prop}

/-- No element of the range is less than one before it. -/
def Ordered (lt : α → α → Prop) (lo up : ℕ) (f : ℕ → α) : Prop :=
  ∀ i j, lo ≤ i → i < j → j ≤ up → ¬ lt (f j) (f i)

theorem Ordered.of_short (hshort : up ≤ lo) : Ordered lt lo up f := by
  intro i j hi hij hj
  omega

theorem Ordered.congr (hf : Ordered lt lo up f) (heq : ∀ i, lo ≤ i → i ≤ up → g i = f i) :
    Ordered lt lo up g := by
  intro i j hi hij hj
  rw [heq i hi (by omega), heq j (by omega) hj]
  exact hf i j hi hij hj

/-- What a strict weak order on the elements in `S` gives to a sorting algorithm. -/
structure Weak (lt : α → α → Prop) (S : α → Prop) : Prop where
  asymm : ∀ {x y}, S x → S y → lt x y → ¬ lt y x
  between : ∀ {x y z}, S x → S y → S z → lt x z → lt x y ∨ lt y z

theorem weak_of_strictWeakOrder {S : α → Prop}
    (hlt : IsStrictWeakOrder {x // S x} fun x y => lt x y) : Weak lt S where
  asymm := by
    intro x y hx hy hxy hyx
    exact hlt.irrefl ⟨x, hx⟩ (hlt.trans _ ⟨y, hy⟩ _ hxy hyx)
  between := by
    intro x y z hx hy hz hxz
    by_contra hnot
    obtain ⟨hxy, hyz⟩ := not_or.mp hnot
    have hyx : ¬ lt y x := fun h => hyz (hlt.trans ⟨y, hy⟩ ⟨x, hx⟩ ⟨z, hz⟩ h hxz)
    have hzy : ¬ lt z y := fun h => hxy (hlt.trans ⟨x, hx⟩ ⟨z, hz⟩ ⟨y, hy⟩ hxz h)
    have hincomp := hlt.incomp_trans ⟨x, hx⟩ ⟨y, hy⟩ ⟨z, hz⟩ ⟨hxy, hyx⟩ ⟨hyz, hzy⟩
    exact hincomp.1 hxz

structure Split (lt : α → α → Prop) (lo up p : ℕ) (f : ℕ → α) : Prop where
  left : ∀ i, lo ≤ i → i < p → ¬ lt (f p) (f i)
  right : ∀ i, p < i → i ≤ up → ¬ lt (f i) (f p)

namespace Split

variable {p q : ℕ}

theorem below (hf : Split lt lo up p f) (hq : p = q + 1)
    (hfg : Rearranged lo q f g) : Split lt lo up p g where
  left := by
    intro i hi hip
    have hsame : g p = f p := hfg.outside (by omega)
    rw [hsame]
    apply hfg.transfer (P := fun x => ¬ lt (f p) x)
    · intro j hj
      exact hf.left j hj.1 (by omega)
    · omega
  right := by
    intro i hpi hi
    rw [hfg.outside (by omega), hfg.outside (by omega)]
    exact hf.right i hpi hi

theorem above (hf : Split lt lo up p f) (hfg : Rearranged (p + 1) up f g) :
    Split lt lo up p g where
  left := by
    intro i hi hip
    rw [hfg.outside (by omega), hfg.outside (by omega)]
    exact hf.left i hi hip
  right := by
    intro i hpi hi
    have hsame : g p = f p := hfg.outside (by omega)
    rw [hsame]
    apply hfg.transfer (P := fun x => ¬ lt x (f p))
    · intro j hj
      exact hf.right j (by omega) hj.2
    · omega

theorem ordered (hf : Split lt lo up p f) {S : α → Prop} (hweak : Weak lt S)
    (hS : ∀ i, lo ≤ i ∧ i ≤ up → S (f i)) (hp : lo ≤ p ∧ p ≤ up) (hq : p = q + 1)
    (hlow : Ordered lt lo q f) (hhigh : Ordered lt (p + 1) up f) : Ordered lt lo up f := by
  intro i j hi hij hj
  rcases Nat.lt_trichotomy j p with hjp | rfl | hpj
  · exact hlow i j hi hij (by omega)
  · exact hf.left i hi hij
  · rcases Nat.lt_trichotomy i p with hip | rfl | hpi
    · intro hlt
      rcases hweak.between (hS j ⟨by omega, hj⟩) (hS p hp) (hS i ⟨hi, by omega⟩) hlt
        with hjp | hpi
      · exact hf.right j hpj hj hjp
      · exact hf.left i hi hip hpi
    · exact hf.right j hpj hj
    · exact hhigh i j hpi hij hj

end Split

end Rearrange
