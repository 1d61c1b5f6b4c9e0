import Mathlib.Logic.Function.Basic

/-!
# Variables that outlive their scope

A slot is a variable for as long as a scope lasts.  Handles name variables, and
a variable that has a handle lives on when its scope has ended; the slot is a
new variable then, with the value it had.
-/

namespace Variables

universe u v w

/-- The variable that a slot is in one of its scopes. -/
structure Var (τ : Type u) where
  owner : τ
  slot : Nat
  scope : Nat
  deriving DecidableEq

/-- The scope every slot is in, the handles, and the values of all variables. -/
structure Store (τ : Type u) (ν : Type v) (β : Type w) where
  scope : τ → Nat → Nat
  names : ν → Option (Var τ)
  value : Var τ → β

/-- What can be seen of the variables, with the answers. -/
inductive Event (τ : Type u) (ν : Type v) (β : Type w) where
  | capture (t : τ) (slot : Nat) (h : ν)
  | read (h : ν) (v : β)
  | write (h : ν) (v : β)
  | readSlot (t : τ) (slot : Nat) (v : β)
  | writeSlot (t : τ) (slot : Nat) (v : β)
  | leave (t : τ) (level : Nat)
  | move (t : τ)

variable {τ : Type u} {ν : Type v} {β : Type w}

namespace Store

def current (A : Store τ ν β) (t : τ) (slot : Nat) : Var τ := ⟨t, slot, A.scope t slot⟩

def assign [DecidableEq τ] (A : Store τ ν β) (x : Var τ) (v : β) : Store τ ν β :=
  { A with value := Function.update A.value x v }

def name [DecidableEq ν] (A : Store τ ν β) (h : ν) (x : Var τ) : Store τ ν β :=
  { A with names := Function.update A.names h (some x) }

def leave [DecidableEq τ] (A : Store τ ν β) (t : τ) (level : Nat) : Store τ ν β :=
  { A with
    scope := fun s i => if s = t ∧ level ≤ i then A.scope s i + 1 else A.scope s i
    value := fun x =>
      if x.owner = t ∧ level ≤ x.slot ∧ x.scope = A.scope x.owner x.slot + 1 then
        A.value (A.current x.owner x.slot)
      else A.value x }

end Store

variable [DecidableEq τ] [DecidableEq ν]

/-- A variable has one handle, which is a new one or the one it has. -/
inductive Step : Store τ ν β → Event τ ν β → Store τ ν β → Prop
  | capture {A : Store τ ν β} {t : τ} {slot : Nat} {h : ν} :
      (A.names h = none ∨ A.names h = some (A.current t slot)) →
      (∀ h', A.names h' = some (A.current t slot) → h' = h) →
      Step A (.capture t slot h) (A.name h (A.current t slot))
  | read {A : Store τ ν β} {h : ν} {x : Var τ} :
      A.names h = some x → Step A (.read h (A.value x)) A
  | write {A : Store τ ν β} {h : ν} {x : Var τ} (v : β) :
      A.names h = some x → Step A (.write h v) (A.assign x v)
  | readSlot {A : Store τ ν β} (t : τ) (slot : Nat) :
      Step A (.readSlot t slot (A.value (A.current t slot))) A
  | writeSlot {A : Store τ ν β} (t : τ) (slot : Nat) (v : β) :
      Step A (.writeSlot t slot v) (A.assign (A.current t slot) v)
  | leave {A : Store τ ν β} (t : τ) (level : Nat) : Step A (.leave t level) (A.leave t level)
  | move {A : Store τ ν β} (t : τ) : Step A (.move t) A

variable {A A' : Store τ ν β} {x : Var τ} {t : τ} {slot level : Nat} {v : β} {h : ν}

omit [DecidableEq ν] in
@[simp] theorem value_assign (y : Var τ) :
    (A.assign x v).value y = if y = x then v else A.value y :=
  Function.update_apply A.value x v y

omit [DecidableEq τ] in
theorem names_name (h' : ν) :
    (A.name h x).names h' = if h' = h then some x else A.names h' :=
  Function.update_apply A.names h (some x) h'

omit [DecidableEq ν] in
/-- A variable whose scope has not ended keeps its value, and so does one whose scope ends. -/
theorem value_leave (hx : x.scope ≤ A.scope x.owner x.slot) :
    (A.leave t level).value x = A.value x := by
  refine if_neg fun hnew => ?_
  have := hnew.2.2
  omega

omit [DecidableEq ν] in
theorem value_current_leave (s : τ) (i : Nat) :
    (A.leave t level).value ((A.leave t level).current s i) = A.value (A.current s i) := by
  by_cases hs : s = t ∧ level ≤ i
  · have hcur : (A.leave t level).current s i = ⟨s, i, A.scope s i + 1⟩ := by
      simp only [Store.current, Store.leave, if_pos hs]
    rw [hcur]
    exact if_pos ⟨hs.1, hs.2, rfl⟩
  · have hcur : (A.leave t level).current s i = A.current s i := by
      simp only [Store.current, Store.leave, if_neg hs]
    rw [hcur]
    exact value_leave (Nat.le_refl _)

omit [DecidableEq ν] in
theorem current_leave_of_not {s : τ} {i : Nat} (hs : ¬ (s = t ∧ level ≤ i)) :
    (A.leave t level).current s i = A.current s i := by
  simp only [Store.current, Store.leave, if_neg hs]

omit [DecidableEq ν] in
theorem scope_le_leave (s : τ) (i : Nat) : A.scope s i ≤ (A.leave t level).scope s i := by
  simp only [Store.leave]
  split
  · exact Nat.le_succ _
  · exact Nat.le_refl _

end Variables
