import Mathlib.Logic.Relation

/-!
# Runs of step functions

A machine takes one input at a time and answers with a list of outputs.  The
concrete machines may fail; the abstract ones are total.  A relation that every
step keeps is kept by every run.
-/

namespace Machine

universe u v w x y

variable {σ : Type u} {τ : Type v} {ι : Type w} {ω : Type x} {ε : Type y}

/-- Feed the inputs in order; the outputs of the steps are concatenated. -/
def run (step : σ → ι → Except ε (σ × List ω)) :
    σ → List ι → Except ε (σ × List ω)
  | s, [] => .ok (s, [])
  | s, i :: rest =>
      match step s i with
      | .error e => .error e
      | .ok (s', out) =>
          match run step s' rest with
          | .error e => .error e
          | .ok (s'', outs) => .ok (s'', out ++ outs)

def trace (step : τ → ι → τ × List ω) : τ → List ι → τ × List ω
  | s, [] => (s, [])
  | s, i :: rest =>
      let (s', out) := step s i
      let (s'', outs) := trace step s' rest
      (s'', out ++ outs)

/-- The concrete step answers as the abstract one, and `R` holds after it. -/
def StepRefines (R : σ → τ → Prop) (Input : ι → Prop)
    (step : σ → ι → Except ε (σ × List ω)) (spec : τ → ι → τ × List ω) : Prop :=
  ∀ {s a i}, R s a → Input i →
    ∃ s', step s i = .ok (s', (spec a i).2) ∧ R s' (spec a i).1

theorem StepRefines.run {R : σ → τ → Prop} {Input : ι → Prop}
    {step : σ → ι → Except ε (σ × List ω)} {spec : τ → ι → τ × List ω}
    (hstep : StepRefines R Input step spec) {inputs : List ι}
    (hinputs : ∀ i ∈ inputs, Input i) {s : σ} {a : τ} (h : R s a) :
    ∃ s', Machine.run step s inputs = .ok (s', (trace spec a inputs).2) ∧
      R s' (trace spec a inputs).1 := by
  induction inputs generalizing s a with
  | nil => exact ⟨s, rfl, h⟩
  | cons i rest ih =>
      obtain ⟨s₁, hok, h₁⟩ := hstep h (hinputs i (by simp))
      obtain ⟨s₂, hrest, h₂⟩ :=
        ih (fun j hj => hinputs j (List.mem_cons_of_mem _ hj)) h₁
      refine ⟨s₂, ?_, h₂⟩
      simp only [Machine.run, hok, hrest, trace]

theorem invariant_of_path {Step : σ → σ → Prop} (Inv : σ → Prop)
    (hstep : ∀ {s s'}, Inv s → Step s s' → Inv s') {s s' : σ} (h : Inv s)
    (hpath : Relation.ReflTransGen Step s s') : Inv s' := by
  induction hpath with
  | refl => exact h
  | tail _ hlast ih => exact hstep ih hlast

/-! ## Labelled runs -/

/-- A run of a relation, with what is seen of every step. -/
inductive Run (Step : σ → ι → σ → Prop) : σ → List ι → σ → Prop
  | refl (s : σ) : Run Step s [] s
  | step {s s' s'' : σ} {is : List ι} {i : ι} :
      Run Step s is s' → Step s' i s'' → Run Step s (is ++ [i]) s''

theorem Run.head {Step : σ → ι → σ → Prop} {s s' s'' : σ} {i : ι} {is : List ι}
    (hstep : Step s i s') (hrun : Run Step s' is s'') : Run Step s (i :: is) s'' := by
  induction hrun with
  | refl => exact Run.step (.refl s) hstep
  | step _ hlast ih => exact Run.step ih hlast

theorem Run.simulate {Step : σ → ι → σ → Prop} {Spec : τ → ι → τ → Prop} {R : σ → τ → Prop}
    (hstep : ∀ {s s' a i}, R s a → Step s i s' → ∃ a', Spec a i a' ∧ R s' a')
    {s s' : σ} {a : τ} {is : List ι} (h : R s a) (hrun : Run Step s is s') :
    ∃ a', Run Spec a is a' ∧ R s' a' := by
  induction hrun with
  | refl => exact ⟨a, .refl a, h⟩
  | step _ hlast ih =>
      obtain ⟨a', hpre, h'⟩ := ih
      obtain ⟨a'', hspec, h''⟩ := hstep h' hlast
      exact ⟨a'', hpre.step hspec, h''⟩

/-! ## Runs that follow a machine up to a condition -/

def Along (step : σ → ι → Except ε (σ × List ω)) (P : σ → ι → Prop) : σ → List ι → Prop
  | _, [] => True
  | s, i :: rest => P s i ∧ ∀ s' out, step s i = .ok (s', out) → Along step P s' rest

def Admits (spec : τ → ι → τ × List ω) (Input : τ → ι → Prop) : τ → List ι → Prop
  | _, [] => True
  | a, i :: rest => Input a i ∧ Admits spec Input (spec a i).1 rest

/-- Every step answers as the abstract one, and `R` holds of all states reached. -/
def Follows (R : σ → τ → Prop) (step : σ → ι → Except ε (σ × List ω))
    (spec : τ → ι → τ × List ω) : σ → τ → List ι → Prop
  | s, a, [] => R s a
  | s, a, i :: rest => R s a ∧
      ∃ s', step s i = .ok (s', (spec a i).2) ∧ Follows R step spec s' (spec a i).1 rest

variable {R : σ → τ → Prop} {step : σ → ι → Except ε (σ × List ω)}
  {spec : τ → ι → τ × List ω} {Input : τ → ι → Prop} {P : σ → ι → Prop}

theorem Along.cons {s s' : σ} {i : ι} {out : List ω} {rest : List ι} (hP : P s i)
    (hok : step s i = .ok (s', out)) (h : Along step P s' rest) :
    Along step P s (i :: rest) :=
  ⟨hP, fun _ _ hok' => by
    cases hok.symm.trans hok'
    exact h⟩

theorem Follows.head {s : σ} {a : τ} : ∀ {inputs : List ι},
    Follows R step spec s a inputs → R s a
  | [], h => h
  | _ :: _, h => h.1

/-- A machine follows another as long as its steps meet the condition for one step. -/
theorem follows_iff_along
    (hstep : ∀ {s a i}, R s a → Input a i →
      ((∃ s', step s i = .ok (s', (spec a i).2) ∧ R s' (spec a i).1) ↔ P s i))
    {inputs : List ι} {s : σ} {a : τ} (hadmits : Admits spec Input a inputs) (h : R s a) :
    Follows R step spec s a inputs ↔ Along step P s inputs := by
  induction inputs generalizing s a with
  | nil => exact ⟨fun _ => trivial, fun _ => h⟩
  | cons i rest ih =>
      obtain ⟨hinput, hrest⟩ := hadmits
      constructor
      · rintro ⟨-, s', hok, hfollows⟩
        have h' := hfollows.head
        refine ⟨(hstep h hinput).mp ⟨s', hok, h'⟩, ?_⟩
        intro s'' out hok'
        cases hok.symm.trans hok'
        exact (ih hrest h').mp hfollows
      · rintro ⟨hP, halong⟩
        obtain ⟨s', hok, h'⟩ := (hstep h hinput).mpr hP
        exact ⟨h, s', hok, (ih hrest h').mpr (halong s' _ hok)⟩

theorem Follows.run {inputs : List ι} {s : σ} {a : τ} (h : Follows R step spec s a inputs) :
    ∃ s', Machine.run step s inputs = .ok (s', (trace spec a inputs).2) ∧
      R s' (trace spec a inputs).1 := by
  induction inputs generalizing s a with
  | nil => exact ⟨s, rfl, h⟩
  | cons i rest ih =>
      obtain ⟨-, s₁, hok, hrest⟩ := h
      obtain ⟨s₂, hrun, h₂⟩ := ih hrest
      refine ⟨s₂, ?_, h₂⟩
      simp only [Machine.run, hok, hrun, trace]

end Machine
