import Mathlib.Data.List.Basic

/-!
# Backtracking searches

What a nondeterministic program may do is the list of its outcomes, in the order
of their priority.  A search with backtracking tries them one after the other: it
stops in the first, or fails and has undone what it did to its state.  Where an
error stops the search, it stands among the outcomes.
-/

namespace Backtracking

universe u v w

/-! ## Outcomes in a row -/

section AndThen

variable {ω : Type u} {ω' : Type v} {ε : Type w}

def andThen (outs : List (Except ε ω)) (k : ω → List (Except ε ω')) : List (Except ε ω') :=
  outs.flatMap fun
    | .error e => [.error e]
    | .ok o => k o

variable {outs : List (Except ε ω)} {k : ω → List (Except ε ω')}

@[simp]
theorem andThen_nil : andThen ([] : List (Except ε ω)) k = [] := rfl

@[simp]
theorem andThen_ok (o : ω) : andThen (.ok o :: outs) k = k o ++ andThen outs k :=
  List.flatMap_cons

@[simp]
theorem andThen_error (e : ε) : andThen (.error e :: outs) k = .error e :: andThen outs k :=
  List.flatMap_cons

theorem andThen_append (outs outs' : List (Except ε ω)) :
    andThen (outs ++ outs') k = andThen outs k ++ andThen outs' k :=
  List.flatMap_append

theorem mem_andThen_ok {o' : ω'} (h : .ok o' ∈ andThen outs k) :
    ∃ o, .ok o ∈ outs ∧ .ok o' ∈ k o := by
  obtain ⟨x, hx, ho⟩ := List.mem_flatMap.mp h
  cases x with
  | error e => simp at ho
  | ok o => exact ⟨o, hx, ho⟩

theorem mem_andThen_error {e : ε} (h : .error e ∈ andThen outs k) :
    .error e ∈ outs ∨ ∃ o, .ok o ∈ outs ∧ .error e ∈ k o := by
  obtain ⟨x, hx, he⟩ := List.mem_flatMap.mp h
  cases x with
  | error e' =>
      obtain rfl : e = e' := by simpa using he
      exact .inl hx
  | ok o => exact .inr ⟨o, hx, he⟩

/-- The outcomes are the same up to the first that is unknown. -/
inductive UpTo (unknown : ε) : List (Except ε ω) → List (Except ε ω) → Prop
  | nil : UpTo unknown [] []
  | unknown (outs outs') : UpTo unknown (.error unknown :: outs) outs'
  | cons (x) {outs outs'} : UpTo unknown outs outs' → UpTo unknown (x :: outs) (x :: outs')

variable {unknown : ε} {outs' : List (Except ε ω)} {k' : ω → List (Except ε ω')}

theorem UpTo.refl (outs : List (Except ε ω)) : UpTo unknown outs outs := by
  induction outs with
  | nil => exact .nil
  | cons x outs ih => exact .cons x ih

theorem UpTo.append {rest rest' : List (Except ε ω)} (h : UpTo unknown outs outs')
    (hrest : UpTo unknown rest rest') : UpTo unknown (outs ++ rest) (outs' ++ rest') := by
  induction h with
  | nil => exact hrest
  | unknown => exact .unknown _ _
  | cons x _ ih => exact .cons x ih

theorem UpTo.andThen (h : UpTo unknown outs outs') (hk : ∀ o, UpTo unknown (k o) (k' o)) :
    UpTo unknown (andThen outs k) (andThen outs' k') := by
  induction h with
  | nil => exact .nil
  | unknown =>
      rw [andThen_error]
      exact .unknown _ _
  | cons x _ ih =>
      cases x with
      | error e =>
          rw [andThen_error, andThen_error]
          exact .cons _ ih
      | ok o =>
          rw [andThen_ok, andThen_ok]
          exact (hk o).append ih

theorem UpTo.head? (h : UpTo unknown outs outs') (hknown : outs.head? ≠ some (.error unknown)) :
    outs.head? = outs'.head? := by
  cases h with
  | nil => rfl
  | unknown => exact absurd rfl hknown
  | cons => rfl

end AndThen

/-! ## Searches -/

section Finds

variable {σ : Type u} {ω : Type v} {ε ε' : Type w}

def Finds (view : σ → ω) (Raises : ε → ε' → Prop) (outs : List (Except ε ω)) (s : σ)
    (r : Except ε' (Bool × σ)) : Prop :=
  match outs.head? with
  | none => r = .ok (false, s)
  | some (.ok o) => ∃ s', r = .ok (true, s') ∧ view s' = o
  | some (.error e) => ∃ e', Raises e e' ∧ r = .error e'

variable {view : σ → ω} {Raises : ε → ε' → Prop} {outs outs' : List (Except ε ω)} {s : σ}
  {r : Except ε' (Bool × σ)}

theorem finds_failure : Finds view Raises [] s (.ok (false, s)) := rfl

theorem Finds.of_success {s' : σ} (h : Finds view Raises outs s (.ok (true, s'))) :
    outs.head? = some (.ok (view s')) := by
  unfold Finds at h
  split at h
  · simp at h
  · obtain ⟨s'', heq, rfl⟩ := h
    cases heq
    assumption
  · obtain ⟨e', -, heq⟩ := h
    cases heq

theorem Finds.of_failure {s' : σ} (h : Finds view Raises outs s (.ok (false, s'))) :
    outs = [] ∧ s' = s := by
  unfold Finds at h
  split at h
  · rename_i hnil
    exact ⟨List.head?_eq_none_iff.mp hnil, by simpa using h⟩
  · obtain ⟨s'', heq, -⟩ := h
    cases heq
  · obtain ⟨e', -, heq⟩ := h
    cases heq

theorem Finds.of_error {e' : ε'} (h : Finds view Raises outs s (.error e')) :
    ∃ e, outs.head? = some (.error e) ∧ Raises e e' := by
  unfold Finds at h
  split at h
  · cases h
  · obtain ⟨s'', heq, -⟩ := h
    cases heq
  · rename_i e he
    obtain ⟨e'', hraises, heq⟩ := h
    cases heq
    exact ⟨e, he, hraises⟩

theorem Finds.orElse {k : σ → Except ε' (Bool × σ)} (h : Finds view Raises outs s r)
    (hk : Finds view Raises outs' s (k s)) :
    Finds view Raises (outs ++ outs') s
      (r >>= fun x => if x.1 = true then pure (true, x.2) else k x.2) := by
  rcases r with e | ⟨_ | _, s'⟩
  · obtain ⟨e, he, hraises⟩ := h.of_error
    unfold Finds
    rw [List.head?_append, he]
    exact ⟨_, hraises, rfl⟩
  · obtain ⟨rfl, rfl⟩ := h.of_failure
    exact hk
  · have hfirst := h.of_success
    unfold Finds
    rw [List.head?_append, hfirst]
    exact ⟨s', rfl, rfl⟩

/-- The search is made from a changed state, and the change is undone behind a
failure. -/
theorem Finds.undoing {s₁ : σ} (h : Finds view Raises outs s₁ r) (undo : σ → σ)
    (hundo : undo s₁ = s) :
    Finds view Raises outs s
      (r >>= fun x => if x.1 = true then pure (true, x.2) else pure (false, undo x.2)) := by
  unfold Finds at h ⊢
  split
  · rename_i hnil
    rw [hnil] at h
    rw [h, ← hundo]
    rfl
  · rename_i o ho
    rw [ho] at h
    obtain ⟨s', rfl, hview⟩ := h
    exact ⟨s', rfl, hview⟩
  · rename_i e he
    rw [he] at h
    obtain ⟨e', hraises, rfl⟩ := h
    exact ⟨e', hraises, rfl⟩

/-- The change is undone behind a success too, where the view does not show it. -/
theorem Finds.bracketed {s₁ : σ} (h : Finds view Raises outs s₁ r) (undo : σ → σ)
    (hundo : undo s₁ = s) (hview : ∀ s', view (undo s') = view s') :
    Finds view Raises outs s (r >>= fun x => pure (x.1, undo x.2)) := by
  unfold Finds at h ⊢
  split
  · rename_i hnil
    rw [hnil] at h
    rw [h, ← hundo]
    rfl
  · rename_i o ho
    rw [ho] at h
    obtain ⟨s', rfl, rfl⟩ := h
    exact ⟨undo s', rfl, hview s'⟩
  · rename_i e he
    rw [he] at h
    obtain ⟨e', hraises, rfl⟩ := h
    exact ⟨e', hraises, rfl⟩

end Finds

end Backtracking
