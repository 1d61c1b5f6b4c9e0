import Mathlib.Data.Nat.Basic

/-!
# Machines that realise computations

A machine steps until it halts with a result.  A computation may stop early with
such a result, and it may run out of fuel.  The machine realises the computation
when it ends as the computation does, and lasts as long as the fuel.
-/

namespace Realising

universe u

variable {γ ρ X Y : Type u}

/-- A computation without a value has run out of fuel. -/
abbrev Comp (ρ X : Type u) := ExceptT ρ Option X

def outOfFuel : Comp ρ X := (none : Option (Except ρ X))

inductive Steps (next : γ → Except ρ γ) : Nat → γ → γ → Prop
  | refl (c : γ) : Steps next 0 c c
  | head {n : Nat} {c c' c'' : γ} :
      next c = .ok c' → Steps next n c' c'' → Steps next (n + 1) c c''

def Halts (next : γ → Except ρ γ) (c : γ) (r : ρ) : Prop :=
  ∃ n c', Steps next n c c' ∧ next c' = .error r

def Lasts (next : γ → Except ρ γ) (n : Nat) (c : γ) : Prop :=
  ∃ m c', n ≤ m ∧ Steps next m c c'

def Realises (next : γ → Except ρ γ) (n : Nat) (c : γ) (m : Comp ρ X)
    (post : X → γ → Prop) : Prop :=
  match (m : Option (Except ρ X)) with
  | none => Lasts next n c
  | some (.error r) => Halts next c r
  | some (.ok x) => ∃ k c', Steps next k c c' ∧ post x c'

variable {next : γ → Except ρ γ} {c c' : γ} {n : Nat} {m : Comp ρ X} {post : X → γ → Prop}

section Steps

theorem Steps.trans {j k : Nat} {c'' : γ} (h : Steps next j c c') (h' : Steps next k c' c'') :
    Steps next (j + k) c c'' := by
  induction h with
  | refl => rwa [Nat.zero_add]
  | @head j _ _ _ hstep _ ih =>
      rw [Nat.succ_add]
      exact .head hstep (ih h')

theorem Lasts.zero (c : γ) : Lasts next 0 c := ⟨0, c, Nat.le_refl 0, .refl c⟩

theorem Lasts.step (hstep : next c = .ok c') (h : Lasts next n c') : Lasts next (n + 1) c := by
  obtain ⟨m, d, hnm, hsteps⟩ := h
  exact ⟨m + 1, d, Nat.succ_le_succ hnm, .head hstep hsteps⟩

theorem Lasts.mono {k : Nat} (hk : k ≤ n) (h : Lasts next n c) : Lasts next k c := by
  obtain ⟨m, d, hnm, hsteps⟩ := h
  exact ⟨m, d, Nat.le_trans hk hnm, hsteps⟩

theorem Lasts.steps {k : Nat} (hsteps : Steps next k c c') (h : Lasts next n c') :
    Lasts next n c := by
  obtain ⟨m, d, hnm, hsteps'⟩ := h
  exact ⟨k + m, d, Nat.le_add_left_of_le hnm, hsteps.trans hsteps'⟩

theorem Halts.steps {k : Nat} {r : ρ} (hsteps : Steps next k c c') (h : Halts next c' r) :
    Halts next c r := by
  obtain ⟨j, d, hsteps', hd⟩ := h
  exact ⟨k + j, d, hsteps.trans hsteps', hd⟩

theorem Steps.le_of_halts {j k : Nat} {c'' : γ} {r : ρ} (h : Steps next j c c')
    (hr : next c' = .error r) (h' : Steps next k c c'') : k ≤ j := by
  induction h generalizing k with
  | refl c =>
      cases h' with
      | refl => exact Nat.le_refl 0
      | head hstep _ =>
          rw [hr] at hstep
          cases hstep
  | head hstep _ ih =>
      cases h' with
      | refl => exact Nat.zero_le _
      | head hstep' hsteps' =>
          rw [hstep] at hstep'
          cases hstep'
          exact Nat.succ_le_succ (ih hr hsteps')

theorem Steps.halts_eq {j k : Nat} {c'' : γ} {r r' : ρ} (h : Steps next j c c')
    (hr : next c' = .error r) (h' : Steps next k c c'') (hr' : next c'' = .error r') :
    r = r' := by
  induction h generalizing k with
  | refl c =>
      cases h' with
      | refl =>
          rw [hr] at hr'
          cases hr'
          rfl
      | head hstep _ =>
          rw [hr] at hstep
          cases hstep
  | head hstep _ ih =>
      cases h' with
      | refl =>
          rw [hr'] at hstep
          cases hstep
      | head hstep' hsteps' =>
          rw [hstep] at hstep'
          cases hstep'
          exact ih hr hsteps'

theorem Halts.unique {r r' : ρ} (h : Halts next c r) (h' : Halts next c r') : r = r' := by
  obtain ⟨_, _, hsteps, hr⟩ := h
  obtain ⟨_, _, hsteps', hr'⟩ := h'
  exact hsteps.halts_eq hr hsteps' hr'

theorem Halts.not_lasts {r : ρ} (h : Halts next c r) : ∃ n, ¬ Lasts next n c := by
  obtain ⟨j, c', hsteps, hr⟩ := h
  refine ⟨j + 1, ?_⟩
  rintro ⟨m, d, hjm, hsteps'⟩
  exact absurd (hsteps.le_of_halts hr hsteps') (Nat.not_le_of_lt hjm)

end Steps

/-! ## Rules -/

theorem Realises.pure {x : X} (h : post x c) : Realises next n c (Pure.pure x) post :=
  ⟨0, c, .refl c, h⟩

theorem Realises.halt {r : ρ} (h : next c = .error r) :
    Realises next n c (throw r : Comp ρ X) post := ⟨0, c, .refl c, h⟩

theorem Realises.outOfFuel (c : γ) : Realises next 0 c (outOfFuel : Comp ρ X) post :=
  Lasts.zero c

theorem Realises.steps {k : Nat} (hsteps : Steps next k c c')
    (h : Realises next n c' m post) : Realises next n c m post := by
  rcases m with _ | _ | _
  · exact Lasts.steps hsteps h
  · exact Halts.steps hsteps h
  · obtain ⟨j, d, hsteps', hpost⟩ := h
    exact ⟨k + j, d, hsteps.trans hsteps', hpost⟩

theorem Realises.step (hstep : next c = .ok c') (h : Realises next n c' m post) :
    Realises next (n + 1) c m post := by
  rcases m with _ | _ | _
  · exact Lasts.step hstep h
  · exact Halts.steps (.head hstep (.refl c')) h
  · obtain ⟨j, d, hsteps', hpost⟩ := h
    exact ⟨j + 1, d, .head hstep hsteps', hpost⟩

theorem Realises.mono {k : Nat} {post' : X → γ → Prop} (hk : k ≤ n)
    (hpost : ∀ x c, post x c → post' x c) (h : Realises next n c m post) :
    Realises next k c m post' := by
  rcases m with _ | _ | _
  · exact Lasts.mono hk h
  · exact h
  · obtain ⟨j, d, hsteps, h⟩ := h
    exact ⟨j, d, hsteps, hpost _ _ h⟩

theorem Realises.onward (hstep : next c = .ok c') (h : Realises next n c' m post) :
    Realises next n c m post := .steps (.head hstep (.refl c')) h

theorem Realises.bind {f : X → Comp ρ Y} {post' : Y → γ → Prop}
    (h : Realises next n c m post)
    (hf : ∀ x c', post x c' → Realises next n c' (f x) post') :
    Realises next n c (m >>= f) post' := by
  rcases m with _ | _ | x
  · exact h
  · exact h
  · obtain ⟨k, c', hsteps, hpost⟩ := h
    exact .steps hsteps (hf x c' hpost)

/-- A step back to what was there before pays for one unit of fuel, if there is one. -/
theorem Realises.back (hstep : next c = .ok c') (h : Realises next (n - 1) c' m post) :
    Realises next n c m post := by
  cases n with
  | zero => exact h.onward hstep
  | succ n => exact h.step hstep

theorem Realises.halts {r : ρ} (h : Realises next n c m fun _ _ => False)
    (hlasts : ¬ Lasts next n c) (hr : Halts next c r) : m = throw r := by
  rcases m with _ | _ | _
  · exact absurd h hlasts
  · rw [hr.unique h]
    rfl
  · obtain ⟨_, _, _, hfalse⟩ := h
    exact hfalse.elim

theorem halts_iff {m : Nat → Comp ρ X} (h : ∀ n, Realises next n c (m n) fun _ _ => False)
    (r : ρ) : Halts next c r ↔ ∃ n, m n = throw r := by
  constructor
  · intro hr
    obtain ⟨n, hlasts⟩ := hr.not_lasts
    exact ⟨n, (h n).halts hlasts hr⟩
  · rintro ⟨n, hn⟩
    have hrealises := h n
    rw [hn] at hrealises
    exact hrealises

/-! ## Loops -/

section Rounds

variable {σ Z : Type u} {world : γ → σ}

def rounds (round : X → StateT σ (Comp ρ) (Y ⊕ X)) : Nat → X → StateT σ (Comp ρ) Y
  | 0, _ => fun _ => outOfFuel
  | fuel + 1, x => do
      match ← round x with
      | .inl y => pure y
      | .inr x => rounds round fuel x

/--
The rounds of a loop are realised when one round is, from any state that stands for
its start, to the end of the loop or back with a unit of fuel paid.
-/
theorem Realises.rounds {round : X → StateT σ (Comp ρ) (Y ⊕ X)} {limit : Nat}
    {start : X → γ → Prop} {stop : Y → γ → Prop}
    (hround : ∀ n x c, n ≤ limit → start x c →
      ∀ (k : Y ⊕ X → StateT σ (Comp ρ) Z) (post : Z × σ → γ → Prop),
        (∀ y c', stop y c' → Realises next n c' (k (.inl y) (world c')) post) →
        (∀ x' c', start x' c' → Realises next (n - 1) c' (k (.inr x') (world c')) post) →
        Realises next n c ((round x >>= k) (world c)) post) :
    ∀ fuel n x c, n ≤ fuel → n ≤ limit → start x c →
      ∀ (k : Y → StateT σ (Comp ρ) Z) (post : Z × σ → γ → Prop),
        (∀ y c', stop y c' → Realises next n c' (k y (world c')) post) →
        Realises next n c ((rounds round fuel x >>= k) (world c)) post
  | 0, n, x, c, hfuel, _, _, k, post, _ => by
      cases Nat.le_zero.mp hfuel
      exact Realises.outOfFuel c
  | fuel + 1, n, x, c, hfuel, hlimit, hstart, k, post, hstop => by
      rw [Realising.rounds, bind_assoc]
      refine hround n x c hlimit hstart _ post (fun y c' hy => ?_) fun x' c' hx' => ?_
      · rw [pure_bind]
        exact hstop y c' hy
      · refine Realises.rounds hround fuel (n - 1) x' c' (by omega) (by omega) hx' k post ?_
        exact fun y c' hy => (hstop y c' hy).mono (Nat.sub_le n 1) fun _ _ h => h

end Rounds

end Realising
