import Mathlib.Order.Defs.Unbundled

/-!
# Frames of stateful programs

A frame says what a successful run keeps: an invariant of the states it starts
in, and a preorder between the states before and after.  Sequencing, choice and
iteration keep what their parts keep.
-/

universe u

variable {σ ε : Type u} {β γ : Type u}

namespace StateFrame

theorem except_bind_ok {m : Except ε β} {f : β → Except ε γ} {c : γ} :
    (m >>= f) = .ok c ↔ ∃ b, m = .ok b ∧ f b = .ok c := by
  cases m with
  | error e => exact ⟨fun h => (nomatch h), fun ⟨_, h, _⟩ => (nomatch h)⟩
  | ok b =>
      constructor
      · exact fun h => ⟨b, rfl, h⟩
      · rintro ⟨b', hb, h⟩
        cases hb
        exact h

theorem bind_ok {m : StateT σ (Except ε) β} {f : β → StateT σ (Except ε) γ} {s : σ}
    {r : γ × σ} : (m >>= f) s = .ok r ↔ ∃ b s', m s = .ok (b, s') ∧ f b s' = .ok r := by
  show (m s).bind (fun p => f p.1 p.2) = .ok r ↔ _
  cases h : m s with
  | error e => exact ⟨fun h => (nomatch h), fun ⟨_, _, h, _⟩ => (nomatch h)⟩
  | ok p =>
      obtain ⟨b, s'⟩ := p
      constructor
      · exact fun hf => ⟨b, s', rfl, hf⟩
      · rintro ⟨b', s'', hb, hf⟩
        cases hb
        exact hf

theorem map_ok {m : StateT σ (Except ε) β} {f : β → γ} {s : σ} {r : γ × σ} :
    (f <$> m) s = .ok r ↔ ∃ b, m s = .ok (b, r.2) ∧ f b = r.1 := by
  show (m s).bind (fun p => .ok (f p.1, p.2)) = .ok r ↔ _
  cases h : m s with
  | error e => exact ⟨fun h => (nomatch h), fun ⟨_, h, _⟩ => (nomatch h)⟩
  | ok p =>
      obtain ⟨b, s'⟩ := p
      constructor
      · intro hf
        cases hf
        exact ⟨b, rfl, rfl⟩
      · rintro ⟨b', hb, hf⟩
        cases hb
        exact congrArg Except.ok (Prod.ext hf rfl)

end StateFrame

/-- An invariant, and a preorder between the states before and after a run. -/
structure StateFrame (σ : Type u) where
  Inv : σ → Prop
  Rel : σ → σ → Prop
  refl : ∀ s, Rel s s
  trans : ∀ {s t v}, Rel s t → Rel t v → Rel s v

namespace StateFrame

variable (F : StateFrame σ)

def Yields (m : StateT σ (Except ε) β) (Q : β → Prop) : Prop :=
  ∀ s b s', F.Inv s → m s = .ok (b, s') → F.Inv s' ∧ F.Rel s s' ∧ Q b

abbrev Keeps (m : StateT σ (Except ε) β) : Prop := F.Yields m fun _ => True

variable {F} {m : StateT σ (Except ε) β} {Q : β → Prop}

theorem Yields.of_ok (h : F.Yields m Q) {s s' : σ} {b : β} (hm : m s = .ok (b, s'))
    (hs : F.Inv s) : F.Inv s' ∧ F.Rel s s' ∧ Q b := h s b s' hs hm

theorem Yields.mono {Q' : β → Prop} (h : F.Yields m Q) (hQ : ∀ b, Q b → Q' b) :
    F.Yields m Q' := by
  intro s b s' hs hm
  obtain ⟨hs', hrel, hb⟩ := h s b s' hs hm
  exact ⟨hs', hrel, hQ b hb⟩

theorem Yields.keeps (h : F.Yields m Q) : F.Keeps m := h.mono fun _ _ => trivial

theorem Yields.bind {f : β → StateT σ (Except ε) γ} {R : γ → Prop} (h : F.Yields m Q)
    (hf : ∀ b, Q b → F.Yields (f b) R) : F.Yields (m >>= f) R := by
  intro s c s' hs hm
  obtain ⟨b, t, hb, hc⟩ := bind_ok.mp hm
  obtain ⟨ht, hst, hQ⟩ := h s b t hs hb
  obtain ⟨hs', hts, hR⟩ := hf b hQ t c s' ht hc
  exact ⟨hs', F.trans hst hts, hR⟩

theorem Yields.andThen {f : β → StateT σ (Except ε) γ} {R : γ → Prop} (h : F.Yields m Q)
    (hf : ∀ b, F.Yields (f b) R) : F.Yields (m >>= f) R := h.bind fun b _ => hf b

theorem yields_pure {b : β} (h : Q b) : F.Yields (pure b : StateT σ (Except ε) β) Q := by
  intro s c s' hs hm
  cases hm
  exact ⟨hs, F.refl s, h⟩

theorem keeps_pure (b : β) : F.Keeps (pure b : StateT σ (Except ε) β) := yields_pure trivial

theorem keeps_throw (e : ε) : F.Yields (throw e : StateT σ (Except ε) β) Q :=
  fun _ _ _ _ hm => nomatch hm

theorem Yields.map {f : β → γ} {R : γ → Prop} (h : F.Yields m Q) (hf : ∀ b, Q b → R (f b)) :
    F.Yields (f <$> m) R := by
  intro s c s' hs hm
  obtain ⟨b, hb, rfl⟩ := map_ok.mp hm
  obtain ⟨hs', hrel, hQ⟩ := h s b s' hs hb
  exact ⟨hs', hrel, hf b hQ⟩

theorem Yields.discard (h : F.Yields m Q) : F.Keeps (discard m) :=
  h.map fun _ _ => trivial

theorem yields_ite {p : Prop} [Decidable p] {m m' : StateT σ (Except ε) β}
    (h : p → F.Yields m Q) (h' : ¬ p → F.Yields m' Q) :
    F.Yields (if p then m else m') Q := by
  by_cases hp : p
  · rw [if_pos hp]
    exact h hp
  · rw [if_neg hp]
    exact h' hp

theorem keeps_forM {ι : Type u} {f : ι → StateT σ (Except ε) PUnit} (xs : List ι)
    (h : ∀ i, F.Keeps (f i)) : F.Keeps (xs.forM f) := by
  induction xs with
  | nil => exact keeps_pure _
  | cons x xs ih => exact (h x).andThen fun _ => ih

end StateFrame
