import Mathlib.Data.List.Infix
import Mathlib.Data.Nat.Find

/-!
# Texts up to a delimiter

A text is cut at the first place where a delimiter stands, one of several that a reader
splits off the front of a text.  A newline in the text is one character or two different
ones, and counts as one either way.
-/

namespace Delimited

universe u v w

variable {α : Type u}

/-- `body` is the text in front of the first delimiter, and `after` what is behind it. -/
structure First (delim text body after : List α) : Prop where
  text_eq : text = body ++ delim ++ after
  first : ∀ i < body.length, ¬ delim <+: text.drop i

theorem exists_first {delim text : List α} (h : delim <:+: text) :
    ∃ body after, First delim text body after := by
  classical
  have hsome : ∃ i, delim <+: text.drop i := by
    obtain ⟨front, after, rfl⟩ := h
    refine ⟨front.length, after, ?_⟩
    rw [List.append_assoc, List.drop_left]
  obtain ⟨after, hafter⟩ := Nat.find_spec hsome
  refine ⟨text.take (Nat.find hsome), after, ?_, fun i hi => ?_⟩
  · rw [List.append_assoc, hafter, List.take_append_drop]
  · exact Nat.find_min hsome (hi.trans_le (List.length_take_le _ _))

/-- What a reader splits off is the front of the text. -/
def Splits (front : List α → Option (List α × List α)) : Prop :=
  ∀ text delim after, front text = some (delim, after) → text = delim ++ after

structure FirstOf (front : List α → Option (List α × List α))
    (text body delim after : List α) : Prop where
  text_eq : text = body ++ (delim ++ after)
  here : front (delim ++ after) = some (delim, after)
  first : ∀ i < body.length, front (text.drop i) = none

def cut (front : List α → Option (List α × List α)) :
    List α → Option (List α × List α × List α)
  | [] => (front []).map fun r => ([], r.1, r.2)
  | c :: rest =>
      match front (c :: rest) with
      | some r => some ([], r.1, r.2)
      | none => (cut front rest).map fun r => (c :: r.1, r.2)

section Cut

variable {front : List α → Option (List α × List α)} {r : List α × List α}
  {text skipped rest body delim after : List α} {c : α}

theorem cut_front (h : front text = some r) : cut front text = some ([], r.1, r.2) := by
  cases text with
  | nil => simp [cut, h]
  | cons c rest => simp [cut, h]

theorem cut_cons (h : front (c :: rest) = none) :
    cut front (c :: rest) = (cut front rest).map fun r => (c :: r.1, r.2) := by
  simp [cut, h]

theorem cut_append (h : ∀ i < skipped.length, front ((skipped ++ rest).drop i) = none) :
    cut front (skipped ++ rest) = (cut front rest).map fun r => (skipped ++ r.1, r.2) := by
  induction skipped with
  | nil => simp
  | cons c skipped ih =>
      have hhere : front (c :: (skipped ++ rest)) = none := h 0 (Nat.succ_pos _)
      have hbehind := ih fun i hi => h (i + 1) (Nat.succ_lt_succ hi)
      rw [List.cons_append, cut_cons hhere, hbehind]
      cases cut front rest <;> rfl

theorem cut_eq_some_iff (hfront : Splits front) :
    cut front text = some (body, delim, after) ↔ FirstOf front text body delim after := by
  constructor
  · intro h
    induction text generalizing body with
    | nil =>
        obtain ⟨⟨d, a⟩, hhere, heq⟩ := Option.map_eq_some_iff.mp h
        cases heq
        have htext := hfront _ _ _ hhere
        rw [htext] at hhere
        exact ⟨htext, hhere, fun i hi => absurd hi (Nat.not_lt_zero i)⟩
    | cons c rest ih =>
        cases hhere : front (c :: rest) with
        | some r =>
            rw [cut_front hhere] at h
            cases h
            have htext := hfront _ _ _ hhere
            rw [htext] at hhere
            exact ⟨htext, hhere, fun i hi => absurd hi (Nat.not_lt_zero i)⟩
        | none =>
            rw [cut_cons hhere] at h
            obtain ⟨⟨body', r⟩, hrest, heq⟩ := Option.map_eq_some_iff.mp h
            cases heq
            obtain ⟨htext, hdelim, hfirst⟩ := ih hrest
            refine ⟨by simp [htext], hdelim, fun i hi => ?_⟩
            cases i with
            | zero => exact hhere
            | succ i => exact hfirst i (Nat.lt_of_succ_lt_succ hi)
  · rintro ⟨rfl, hdelim, hfirst⟩
    rw [cut_append hfirst, cut_front hdelim]
    simp

theorem cut_eq_none_iff :
    cut front text = none ↔ ∀ i ≤ text.length, front (text.drop i) = none := by
  induction text with
  | nil => simp [cut]
  | cons c rest ih =>
      cases hhere : front (c :: rest) with
      | some r =>
          rw [cut_front hhere]
          refine iff_of_false (by simp) fun h => ?_
          have hzero := h 0 (Nat.zero_le _)
          rw [List.drop_zero, hhere] at hzero
          contradiction
      | none =>
          rw [cut_cons hhere, Option.map_eq_none_iff, ih]
          constructor
          · intro h i hi
            cases i with
            | zero => exact hhere
            | succ i => exact h i (Nat.le_of_succ_le_succ hi)
          · exact fun h i hi => h (i + 1) (Nat.succ_le_succ hi)

section UpToFirst

variable {ε : Type v} {β : Type w} {e : ε} {make : List α → List α → List α → β}

/-- What is made of the text up to the first delimiter; without one it is an error. -/
def upToFirst (front : List α → Option (List α × List α)) (text : List α) (e : ε)
    (make : List α → List α → List α → β) : Except ε β :=
  match cut front text with
  | none => .error e
  | some (body, delim, after) => .ok (make body delim after)

theorem upToFirst_ok (hfront : Splits front) (h : FirstOf front text body delim after) :
    upToFirst front text e make = .ok (make body delim after) := by
  rw [upToFirst, (cut_eq_some_iff hfront).mpr h]

theorem upToFirst_error_iff :
    (∃ e', upToFirst front text e make = .error e') ↔
      ∀ i ≤ text.length, front (text.drop i) = none := by
  rw [← cut_eq_none_iff, upToFirst]
  cases cut front text <;> simp

end UpToFirst

end Cut

/-! ## Newlines -/

section Newlines

variable [DecidableEq α] (isNewline : α → Bool) (newline : α)

def pastPair (c : α) : List α → List α
  | [] => []
  | d :: rest => if isNewline d ∧ d ≠ c then rest else d :: rest

theorem pastPair_length_le (c : α) (text : List α) :
    (pastPair isNewline c text).length ≤ text.length := by
  cases text with
  | nil => exact le_rfl
  | cons d rest =>
      rw [pastPair]
      split <;> simp

def normalise : List α → List α
  | [] => []
  | c :: rest =>
      if isNewline c then newline :: normalise (pastPair isNewline c rest)
      else c :: normalise rest
  termination_by text => text.length
  decreasing_by
    · exact Nat.lt_succ_of_le (pastPair_length_le isNewline c rest)
    · exact Nat.lt_succ_self _

def dropNewline : List α → List α
  | [] => []
  | c :: rest => if isNewline c then pastPair isNewline c rest else c :: rest

def breaks (text : List α) : Nat := (normalise isNewline newline text).count newline

variable {isNewline newline} {c : α} {text rest skipped : List α}

theorem normalise_newline (h : isNewline c = true) :
    normalise isNewline newline (c :: rest) =
      newline :: normalise isNewline newline (pastPair isNewline c rest) := by
  rw [normalise, if_pos h]

theorem normalise_append (h : ∀ c ∈ skipped, isNewline c = false) :
    normalise isNewline newline (skipped ++ text) =
      skipped ++ normalise isNewline newline text := by
  induction skipped with
  | nil => rfl
  | cons c skipped ih =>
      obtain ⟨hc, hskipped⟩ := List.forall_mem_cons.mp h
      rw [List.cons_append, normalise, if_neg (by simp [hc]), ih hskipped, List.cons_append]

theorem breaks_newline (h : isNewline c = true) :
    breaks isNewline newline (c :: rest) =
      breaks isNewline newline (pastPair isNewline c rest) + 1 := by
  rw [breaks, normalise_newline h, List.count_cons_self, breaks]

theorem breaks_append (hnewline : isNewline newline = true)
    (h : ∀ c ∈ skipped, isNewline c = false) :
    breaks isNewline newline (skipped ++ text) = breaks isNewline newline text := by
  have hcount : skipped.count newline = 0 := by
    rw [List.count_eq_zero]
    intro hmem
    simp [h _ hmem] at hnewline
  rw [breaks, normalise_append h, List.count_append, hcount, Nat.zero_add, breaks]

theorem cut_pastPair {front : List α → Option (List α × List α)}
    (hfront : ∀ d tail, isNewline d = true → front (d :: tail) = none) (c : α) (text : List α) :
    cut front (pastPair isNewline c text) =
      (cut front text).map fun r => (pastPair isNewline c r.1, r.2) := by
  cases text with
  | nil =>
      simp only [pastPair, cut]
      cases front [] <;> rfl
  | cons d rest =>
      by_cases hpair : isNewline d = true ∧ d ≠ c
      · rw [cut_cons (hfront d rest hpair.1), pastPair, if_pos hpair]
        cases cut front rest with
        | none => rfl
        | some r => simp [pastPair, hpair]
      · rw [pastPair, if_neg hpair]
        cases hhere : front (d :: rest) with
        | some r =>
            rw [cut_front hhere]
            rfl
        | none =>
            rw [cut_cons hhere]
            cases cut front rest with
            | none => rfl
            | some r => simp only [Option.map_some, pastPair, if_neg hpair]

end Newlines

end Delimited
