import Mathlib.Logic.Relation

/-!
# Following a chain for a bounded number of rounds

A loop goes from one element to the next until an element settles the matter,
and gives up after a fixed number of rounds.
-/

namespace Chase

universe u v

/-- What a round of the loop comes to. -/
inductive Round (α : Type u) (β : Type v) where
  | settled (r : β)
  | next (a : α)

variable {α : Type u} {β : Type v} {round round' : α → Round α β} {exhausted : α → β}
  {a b c : α} {r : β}

def chase (round : α → Round α β) (exhausted : α → β) : Nat → α → β
  | 0, a => exhausted a
  | n + 1, a =>
      match round a with
      | .settled r => r
      | .next a => chase round exhausted n a

/-- The chain goes on from one element to another. -/
def Leads (round : α → Round α β) (a b : α) : Prop := round a = .next b

/-- A chain of a number of elements. -/
inductive Path (round : α → Round α β) : Nat → α → α → Prop
  | refl (a : α) : Path round 0 a a
  | step {n : Nat} {a b c : α} : Leads round a b → Path round n b c → Path round (n + 1) a c

theorem Leads.unique (h : Leads round a b) (h' : Leads round a c) : b = c :=
  Round.next.inj (h.symm.trans h')

theorem chase_settled (h : round a = .settled r) (n : Nat) :
    chase round exhausted (n + 1) a = r := by
  rw [chase, h]

theorem chase_next (h : Leads round a b) (n : Nat) :
    chase round exhausted (n + 1) a = chase round exhausted n b := by
  rw [chase, show round a = .next b from h]

/-- A chain that ends within the bound is followed to its end. -/
theorem chase_of_path {n bound : Nat} (hpath : Path round n a b)
    (hsettled : round b = .settled r) (hn : n < bound) : chase round exhausted bound a = r := by
  induction hpath generalizing bound with
  | refl a =>
      obtain ⟨m, rfl⟩ : ∃ m, bound = m + 1 := ⟨bound - 1, by omega⟩
      exact chase_settled hsettled m
  | step hleads _ ih =>
      obtain ⟨m, rfl⟩ : ∃ m, bound = m + 1 := ⟨bound - 1, by omega⟩
      rw [chase_next hleads]
      exact ih hsettled (Nat.lt_of_succ_lt_succ hn)

theorem leads_of_cycle (hcycle : Relation.TransGen (Leads round) b b)
    (hback : Relation.ReflTransGen (Leads round) a b) :
    ∃ c, Leads round a c ∧ Relation.ReflTransGen (Leads round) c b := by
  rcases Relation.ReflTransGen.cases_head hback with rfl | ⟨c, hac, hcb⟩
  · obtain ⟨c, hac, hcb⟩ := Relation.TransGen.head'_iff.mp hcycle
    exact ⟨c, hac, hcb⟩
  · exact ⟨c, hac, hcb⟩

theorem chase_of_cycle (hcycle : Relation.TransGen (Leads round) b b) (n : Nat) :
    ∀ {a}, Relation.ReflTransGen (Leads round) a b →
      ∃ c, Relation.ReflTransGen (Leads round) a c ∧
        chase round exhausted n a = exhausted c := by
  induction n with
  | zero => exact fun {a} _ => ⟨a, .refl, rfl⟩
  | succ n ih =>
      intro a hback
      obtain ⟨a', hleads, hback'⟩ := leads_of_cycle hcycle hback
      obtain ⟨c, hac, hc⟩ := ih hback'
      exact ⟨c, .head hleads hac, by rw [chase_next hleads, hc]⟩

end Chase
