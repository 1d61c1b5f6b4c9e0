import Luatier.Lib.StateFrame

/-!
# Partial correctness of stateful programs

`Ensures m s Q`: when `m` succeeds from `s`, its result and the state after it
satisfy `Q`.  The rules turn a program into what it asks of its steps.
-/

universe u

variable {σ ε : Type u} {β γ : Type u}

def Ensures (m : StateT σ (Except ε) β) (s : σ) (Q : β → σ → Prop) : Prop :=
  ∀ b s', m s = .ok (b, s') → Q b s'

section Rules

variable {m : StateT σ (Except ε) β} {s : σ} {Q : β → σ → Prop}

theorem Ensures.mono {Q' : β → σ → Prop} (h : Ensures m s Q) (hQ : ∀ b t, Q b t → Q' b t) :
    Ensures m s Q' :=
  fun b s' hm => hQ b s' (h b s' hm)

theorem Ensures.and {Q' : β → σ → Prop} (h : Ensures m s Q) (h' : Ensures m s Q') :
    Ensures m s fun b t => Q b t ∧ Q' b t :=
  fun b s' hm => ⟨h b s' hm, h' b s' hm⟩

theorem Ensures.all {ι : Type*} {Q : ι → β → σ → Prop} (h : ∀ i, Ensures m s (Q i)) :
    Ensures m s fun b t => ∀ i, Q i b t :=
  fun b s' hm i => h i b s' hm

@[simp] theorem ensures_pure {b : β} :
    Ensures (pure b : StateT σ (Except ε) β) s Q ↔ Q b s := by
  constructor
  · exact fun h => h b s rfl
  · rintro h _ _ hm
    cases hm
    exact h

@[simp] theorem ensures_throw {e : ε} :
    Ensures (throw e : StateT σ (Except ε) β) s Q ↔ True := by
  refine iff_of_true ?_ trivial
  rintro _ _ hm
  cases hm

@[simp] theorem ensures_bind {f : β → StateT σ (Except ε) γ} {Q : γ → σ → Prop} :
    Ensures (m >>= f) s Q ↔ Ensures m s fun b t => Ensures (f b) t Q := by
  constructor
  · intro h b t hb c s' hc
    exact h c s' (StateFrame.bind_ok.mpr ⟨b, t, hb, hc⟩)
  · intro h c s' hm
    obtain ⟨b, t, hb, hc⟩ := StateFrame.bind_ok.mp hm
    exact h b t hb c s' hc

@[simp] theorem ensures_map {f : β → γ} {Q : γ → σ → Prop} :
    Ensures (f <$> m) s Q ↔ Ensures m s fun b t => Q (f b) t := by
  constructor
  · intro h b t hb
    exact h (f b) t (StateFrame.map_ok.mpr ⟨b, hb, rfl⟩)
  · intro h c s' hm
    obtain ⟨b, hb, rfl⟩ := StateFrame.map_ok.mp hm
    exact h b s' hb

@[simp] theorem ensures_discard {Q : PUnit → σ → Prop} :
    Ensures (discard m) s Q ↔ Ensures m s fun _ t => Q ⟨⟩ t :=
  ensures_map

@[simp] theorem ensures_ite {p : Prop} [Decidable p] {m' : StateT σ (Except ε) β} :
    Ensures (if p then m else m') s Q ↔ (p → Ensures m s Q) ∧ (¬ p → Ensures m' s Q) := by
  by_cases hp : p
  · simp [hp]
  · simp [hp]

end Rules
