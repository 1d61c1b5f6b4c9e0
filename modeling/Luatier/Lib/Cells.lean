import Mathlib.Logic.Function.Basic
import Mathlib.Tactic.Common

/-!
# Cells behind a program

A program reads and writes cells by operations that may do other work and may
fail.  A range of cells is copied as if all at once when no cell is written
before it is read.
-/

namespace Cells

variable {ε σ α β : Type}

/-! ## How programs end -/

/-- `Q` holds of a result and `E` of an error, with the state that they leave. -/
def Ends (m : EStateM ε σ α) (s : σ) (Q : α → σ → Prop) (E : ε → σ → Prop) : Prop :=
  match m s with
  | .ok a s' => Q a s'
  | .error e s' => E e s'

abbrev Returns (m : EStateM ε σ α) (s : σ) (Q : α → σ → Prop) : Prop :=
  Ends m s Q fun _ _ => False

variable {m : EStateM ε σ α} {s s' : σ} {Q : α → σ → Prop} {E : ε → σ → Prop}

theorem Ends.mono {Q' : α → σ → Prop} {E' : ε → σ → Prop} (h : Ends m s Q E)
    (hQ : ∀ a s', Q a s' → Q' a s') (hE : ∀ e s', E e s' → E' e s') : Ends m s Q' E' := by
  unfold Ends at h ⊢
  cases hm : m s with
  | ok a s' =>
      rw [hm] at h
      exact hQ a s' h
  | error e s' =>
      rw [hm] at h
      exact hE e s' h

theorem Returns.imp {Q' : α → σ → Prop} (h : Returns m s Q) (hQ : ∀ a s', Q a s' → Q' a s') :
    Returns m s Q' :=
  h.mono hQ fun _ _ => id

theorem Returns.ends (h : Returns m s Q) : Ends m s Q E :=
  h.mono (fun _ _ => id) fun _ _ => False.elim

theorem Ends.bind {R : β → σ → Prop} {f : α → EStateM ε σ β} (h : Ends m s Q E)
    (hf : ∀ a s', Q a s' → Ends (f a) s' R E) : Ends (m >>= f) s R E := by
  unfold Ends at h
  show match EStateM.bind m f s with | .ok b s' => R b s' | .error e s' => E e s'
  unfold EStateM.bind
  cases hm : m s with
  | ok a s' =>
      rw [hm] at h
      exact hf a s' h
  | error e s' =>
      rw [hm] at h
      exact h

theorem Ends.congr {m' : EStateM ε σ α} (heq : m s = m' s') (h : Ends m' s' Q E) :
    Ends m s Q E := by
  unfold Ends at h ⊢
  rwa [heq]

theorem bind_of_ok {f : α → EStateM ε σ β} {a : α} (h : m s = .ok a s') :
    (m >>= f) s = f a s' := by
  show EStateM.bind m f s = f a s'
  rw [EStateM.bind, h]

theorem bind_of_error {f : α → EStateM ε σ β} {e : ε} (h : m s = .error e s') :
    (m >>= f) s = .error e s' := by
  show EStateM.bind m f s = .error e s'
  rw [EStateM.bind, h]

theorem ends_self : Ends m s (fun a s' => m s = .ok a s') fun e s' => m s = .error e s' := by
  unfold Ends
  cases m s with
  | ok a s' => exact rfl
  | error e s' => exact rfl

theorem ends_pure {a : α} (h : Q a s) : Ends (pure a) s Q E := h

theorem ends_throw {e : ε} (h : E e s) : Ends (throw e : EStateM ε σ α) s Q E := h

theorem ends_ite {p : Prop} [Decidable p] {m' : EStateM ε σ α} (h : p → Ends m s Q E)
    (h' : ¬ p → Ends m' s Q E) : Ends (if p then m else m') s Q E := by
  by_cases hp : p
  · simpa only [if_pos hp] using h hp
  · simpa only [if_neg hp] using h' hp

theorem Ends.and {Q' : α → σ → Prop} {E' : ε → σ → Prop} (h : Ends m s Q E)
    (h' : Ends m s Q' E') :
    Ends m s (fun a s' => Q a s' ∧ Q' a s') fun e s' => E e s' ∧ E' e s' := by
  unfold Ends at h h' ⊢
  cases hm : m s with
  | ok a s' =>
      rw [hm] at h h'
      exact ⟨h, h'⟩
  | error e s' =>
      rw [hm] at h h'
      exact ⟨h, h'⟩

theorem returns_iff : Returns m s Q ↔ ∃ a s', m s = .ok a s' ∧ Q a s' := by
  unfold Returns Ends
  cases m s with
  | ok a s' => simp
  | error e s' => simp

theorem exists_error (h : Ends m s (fun _ _ => False) E) :
    ∃ e s', m s = .error e s' ∧ E e s' := by
  unfold Ends at h
  cases hm : m s with
  | ok a s' =>
      rw [hm] at h
      exact h.elim
  | error e s' =>
      rw [hm] at h
      exact ⟨e, s', rfl, h⟩

/-! ## Counting loops -/

def ascending (body : Nat → EStateM ε σ Unit) (i : Nat) : Nat → EStateM ε σ Unit
  | 0 => pure ()
  | n + 1 => do
      body i
      ascending body (i + 1) n

def descending (body : Nat → EStateM ε σ Unit) : Nat → EStateM ε σ Unit
  | 0 => pure ()
  | n + 1 => do
      body n
      descending body n

theorem Ends.ascending (body : Nat → EStateM ε σ Unit) {P : Nat → σ → Prop} {n : Nat} :
    ∀ {i : Nat} {s : σ}, P i s →
      (∀ k s, i ≤ k → k < i + n → P k s → Ends (body k) s (fun _ => P (k + 1)) E) →
      Ends (ascending body i n) s (fun _ => P (i + n)) E := by
  induction n with
  | zero =>
      intro i s hs _
      exact ends_pure hs
  | succ n ih =>
      intro i s hs hbody
      apply (hbody i s (Nat.le_refl i) (by omega) hs).bind
      intro _ s' hs'
      rw [show i + (n + 1) = i + 1 + n by omega]
      apply ih hs'
      intro k t hik hkn
      exact hbody k t (by omega) (by omega)

theorem Ends.descending (body : Nat → EStateM ε σ Unit) {P : Nat → σ → Prop} {n : Nat} :
    ∀ {s : σ}, P n s → (∀ k s, k < n → P (k + 1) s → Ends (body k) s (fun _ => P k) E) →
      Ends (descending body n) s (fun _ => P 0) E := by
  induction n with
  | zero =>
      intro s hs _
      exact ends_pure hs
  | succ n ih =>
      intro s hs hbody
      apply (hbody n s (Nat.lt_succ_self n) hs).bind
      intro _ s' hs'
      apply ih hs'
      intro k t hkn
      exact hbody k t (by omega)

end Cells

/-- Cells of type `V` with addresses `ι`, as the states of a program hold them. -/
structure Cells (ε σ ι V : Type) [DecidableEq ι] where
  view : σ → ι → V
  /-- The states in which the operations work. -/
  Ok : σ → Prop
  /-- The cells that can be reached. -/
  Mem : ι → Prop
  get : ι → EStateM ε σ V
  put : ι → V → EStateM ε σ Unit
  get_ok : ∀ {s c}, Ok s → Mem c →
    Cells.Returns (get c) s fun v s' => v = view s c ∧ Ok s' ∧ view s' = view s
  put_ok : ∀ {s c v}, Ok s → Mem c →
    Cells.Returns (put c v) s fun _ s' => Ok s' ∧ view s' = Function.update (view s) c v

namespace Cells

variable {ε σ ι V : Type} [DecidableEq ι] (S : Cells ε σ ι V)

def copyCell (dst src : ι) : EStateM ε σ Unit := do
  let v ← S.get src
  S.put dst v

variable {S} {s : σ}

theorem copyCell_ok {dst src : ι} (hs : S.Ok s) (hdst : S.Mem dst) (hsrc : S.Mem src) :
    Returns (S.copyCell dst src) s fun _ s' =>
      S.Ok s' ∧ S.view s' = Function.update (S.view s) dst (S.view s src) := by
  apply (S.get_ok hs hsrc).bind
  rintro v s' ⟨rfl, hs', hview⟩
  rw [← hview]
  exact S.put_ok hs' hdst

/-! ## Simultaneous copies -/

/-- The cells `dst i` with `P i` have what `src i` had; the others are as before. -/
structure Moved (P : Nat → Prop) (dst src : Nat → ι) (before after : ι → V) : Prop where
  moved : ∀ i, P i → after (dst i) = before (src i)
  kept : ∀ c, (∀ i, P i → c ≠ dst i) → after c = before c

section

variable {P P' : Nat → Prop} {dst src : Nat → ι} {before after : ι → V} {k : Nat}

omit [DecidableEq ι] in
theorem Moved.none (h : ∀ i, ¬ P i) : Moved P dst src before before where
  moved i hi := absurd hi (h i)
  kept _ _ := rfl

theorem Moved.step (h : Moved P dst src before after) (hP' : ∀ i, P' i ↔ P i ∨ i = k)
    (hread : ∀ i, P i → src k ≠ dst i) (hwrite : ∀ i, P i → dst i ≠ dst k) :
    Moved P' dst src before (Function.update after (dst k) (after (src k))) where
  moved i hi := by
    rcases (hP' i).mp hi with hi | rfl
    · rw [Function.update_of_ne (hwrite i hi), h.moved i hi]
    · rw [Function.update_self, h.kept _ hread]
  kept c hc := by
    rw [Function.update_of_ne (hc k ((hP' k).mpr (Or.inr rfl)))]
    apply h.kept
    intro i hi
    exact hc i ((hP' i).mpr (Or.inl hi))

end

variable {n : Nat} {dst src : Nat → ι}

theorem ascending_copies (hs : S.Ok s) (hdst : ∀ i < n, S.Mem (dst i))
    (hsrc : ∀ i < n, S.Mem (src i)) (hinj : ∀ i j, i < j → j < n → dst i ≠ dst j)
    (hread : ∀ i j, i < j → j < n → dst i ≠ src j) :
    Returns (ascending (fun i => S.copyCell (dst i) (src i)) 0 n) s fun _ s' =>
      S.Ok s' ∧ Moved (· < n) dst src (S.view s) (S.view s') := by
  have hstart : S.Ok s ∧ Moved (· < 0) dst src (S.view s) (S.view s) :=
    ⟨hs, .none fun i => Nat.not_lt_zero i⟩
  have hloop := Ends.ascending (fun i => S.copyCell (dst i) (src i)) (n := n)
    (E := fun _ _ => False)
    (P := fun k t => S.Ok t ∧ Moved (· < k) dst src (S.view s) (S.view t)) hstart
  rw [Nat.zero_add] at hloop
  apply hloop
  rintro k t - hk ⟨ht, hmoved⟩
  apply (copyCell_ok ht (hdst k hk) (hsrc k hk)).imp
  rintro _ t' ⟨ht', hview⟩
  refine ⟨ht', ?_⟩
  rw [hview]
  apply hmoved.step
  · intro i
    omega
  · intro i hi
    exact (hread i k hi hk).symm
  · intro i hi
    exact hinj i k hi hk

theorem descending_copies (hs : S.Ok s) (hdst : ∀ i < n, S.Mem (dst i))
    (hsrc : ∀ i < n, S.Mem (src i)) (hinj : ∀ i j, i < j → j < n → dst i ≠ dst j)
    (hread : ∀ i j, i < j → j < n → dst j ≠ src i) :
    Returns (descending (fun i => S.copyCell (dst i) (src i)) n) s fun _ s' =>
      S.Ok s' ∧ Moved (· < n) dst src (S.view s) (S.view s') := by
  have hstart : S.Ok s ∧ Moved (fun i => n ≤ i ∧ i < n) dst src (S.view s) (S.view s) :=
    ⟨hs, .none fun i hi => by omega⟩
  have hloop := Ends.descending (fun i => S.copyCell (dst i) (src i)) (n := n)
    (E := fun _ _ => False)
    (P := fun k t => S.Ok t ∧
      Moved (fun i => k ≤ i ∧ i < n) dst src (S.view s) (S.view t)) hstart
  simp only [Nat.zero_le, true_and] at hloop
  apply hloop
  rintro k t hk ⟨ht, hmoved⟩
  apply (copyCell_ok ht (hdst k hk) (hsrc k hk)).imp
  rintro _ t' ⟨ht', hview⟩
  refine ⟨ht', ?_⟩
  rw [hview]
  apply hmoved.step
  · intro i
    omega
  · intro i hi
    exact (hread k i (by omega) hi.2).symm
  · intro i hi
    exact (hinj k i (by omega) hi.2).symm

end Cells
