import Mathlib.Order.Lattice

/-!
# Tests that read an order off a value

Some elements have a value in a linear order and the others are unordered.
What is a strict total order on the former, up to equality of values, follows
from the three tests being exact.
-/

namespace Comparison

variable {α β : Type*} [LinearOrder β]

/-- The tests are the order and the equality of the values. -/
structure Exact (value? : α → Option β) (lt le eq : α → α → Bool) : Prop where
  lt_iff : ∀ a b, lt a b = true ↔ ∃ x ∈ value? a, ∃ y ∈ value? b, x < y
  le_iff : ∀ a b, le a b = true ↔ ∃ x ∈ value? a, ∃ y ∈ value? b, x ≤ y
  eq_iff : ∀ a b, eq a b = true ↔ ∃ x ∈ value? a, ∃ y ∈ value? b, x = y

/-- A strict total order on the elements that are ordered at all. -/
structure StrictTotal (Ordered : α → Prop) (lt eq : α → α → Bool) : Prop where
  irrefl : ∀ a, lt a a = false
  trans : ∀ a b c, lt a b = true → lt b c = true → lt a c = true
  total : ∀ a b, Ordered a → Ordered b → lt a b = true ∨ eq a b = true ∨ lt b a = true
  not_eq : ∀ a b, lt a b = true → eq a b = false
  refl_iff : ∀ a, eq a a = true ↔ Ordered a
  symm : ∀ a b, eq a b = true → eq b a = true
  eq_trans : ∀ a b c, eq a b = true → eq b c = true → eq a c = true
  lt_of_eq : ∀ a b c, eq a b = true → lt b c = true → lt a c = true
  eq_of_lt : ∀ a b c, lt a b = true → eq b c = true → lt a c = true

variable {value? : α → Option β} {lt le eq : α → α → Bool}

theorem Exact.strictTotal (h : Exact value? lt le eq) :
    StrictTotal (fun a => (value? a).isSome) lt eq where
  irrefl a := by
    rw [Bool.eq_false_iff]
    intro hlt
    obtain ⟨x, hx, y, hy, hxy⟩ := (h.lt_iff a a).mp hlt
    cases Option.mem_unique hx hy
    exact lt_irrefl x hxy
  trans a b c hab hbc := by
    obtain ⟨x, hx, y, hy, hxy⟩ := (h.lt_iff a b).mp hab
    obtain ⟨y', hy', z, hz, hyz⟩ := (h.lt_iff b c).mp hbc
    cases Option.mem_unique hy hy'
    exact (h.lt_iff a c).mpr ⟨x, hx, z, hz, lt_trans hxy hyz⟩
  total a b ha hb := by
    obtain ⟨x, hx⟩ := Option.isSome_iff_exists.mp ha
    obtain ⟨y, hy⟩ := Option.isSome_iff_exists.mp hb
    rw [h.lt_iff, h.eq_iff, h.lt_iff]
    rcases lt_trichotomy x y with hlt | heq | hgt
    · exact .inl ⟨x, hx, y, hy, hlt⟩
    · exact .inr (.inl ⟨x, hx, y, hy, heq⟩)
    · exact .inr (.inr ⟨y, hy, x, hx, hgt⟩)
  not_eq a b hab := by
    rw [Bool.eq_false_iff]
    intro heq
    obtain ⟨x, hx, y, hy, hxy⟩ := (h.lt_iff a b).mp hab
    obtain ⟨x', hx', y', hy', rfl⟩ := (h.eq_iff a b).mp heq
    cases Option.mem_unique hx hx'
    cases Option.mem_unique hy hy'
    exact lt_irrefl _ hxy
  refl_iff a := by
    rw [h.eq_iff, Option.isSome_iff_exists]
    constructor
    · rintro ⟨x, hx, -⟩
      exact ⟨x, hx⟩
    · rintro ⟨x, hx⟩
      exact ⟨x, hx, x, hx, rfl⟩
  symm a b hab := by
    obtain ⟨x, hx, y, hy, rfl⟩ := (h.eq_iff a b).mp hab
    exact (h.eq_iff b a).mpr ⟨x, hy, x, hx, rfl⟩
  eq_trans a b c hab hbc := by
    obtain ⟨x, hx, y, hy, rfl⟩ := (h.eq_iff a b).mp hab
    obtain ⟨y', hy', z, hz, rfl⟩ := (h.eq_iff b c).mp hbc
    cases Option.mem_unique hy hy'
    exact (h.eq_iff a c).mpr ⟨x, hx, x, hz, rfl⟩
  lt_of_eq a b c hab hbc := by
    obtain ⟨x, hx, y, hy, rfl⟩ := (h.eq_iff a b).mp hab
    obtain ⟨y', hy', z, hz, hlt⟩ := (h.lt_iff b c).mp hbc
    cases Option.mem_unique hy hy'
    exact (h.lt_iff a c).mpr ⟨x, hx, z, hz, hlt⟩
  eq_of_lt a b c hab hbc := by
    obtain ⟨x, hx, y, hy, hlt⟩ := (h.lt_iff a b).mp hab
    obtain ⟨y', hy', z, hz, rfl⟩ := (h.eq_iff b c).mp hbc
    cases Option.mem_unique hy hy'
    exact (h.lt_iff a c).mpr ⟨x, hx, y, hz, hlt⟩

end Comparison
