import Mathlib.Data.List.Basic

/-!
# Scanning a text

A scan looks at one place after the other for something that starts there and stops
at the same place or behind it.  It goes on where the last find stopped, and passes
over a find that stops there too.  Places have numbers up to the length of the text.
-/

namespace Scanning

universe u v w x

variable {α : Type u} {β : Type v} {ε : Type w} {ω : Type x}

section Scan

variable (find : Nat → Except ε (Option α)) (stop : α → Nat) (len : Nat)

def next (last : Option Nat) (src : Nat) : Except ε (Option (Nat × α)) :=
  if src ≤ len then
    match find src with
    | .error e => .error e
    | .ok none => next last (src + 1)
    | .ok (some a) =>
        if some (stop a) = last then next last (src + 1) else .ok (some (src, a))
  else .ok none
  termination_by len + 1 - src

def upTo : Nat → Option Nat → Nat → Except ε (List (Nat × α))
  | 0, _, _ => .ok []
  | n + 1, last, src =>
      match next find stop len last src with
      | .error e => .error e
      | .ok none => .ok []
      | .ok (some (i, a)) => (upTo n (some (stop a)) (stop a)).map ((i, a) :: ·)

def Forward : Prop :=
  ∀ src a, src ≤ len → find src = .ok (some a) → src ≤ stop a ∧ stop a ≤ len

def Passed (last : Option Nat) (src : Nat) : Prop :=
  ∃ a, find src = .ok (some a) ∧ some (stop a) = last

open Classical in
noncomputable def room (last : Option Nat) (src : Nat) : Nat :=
  if Passed find stop last src then len - src else len + 1 - src

end Scan

variable {find : Nat → Except ε (Option α)} {stop : α → Nat} {len src i n m : Nat}
  {last : Option Nat} {a : α} {e : ε} {found : List (Nat × α)}

/-! ## The next find -/

theorem next_past (h : len < src) : next find stop len last src = .ok none := by
  rw [next]
  simp [Nat.not_le.mpr h]

theorem next_error (h : src ≤ len) (hfind : find src = .error e) :
    next find stop len last src = .error e := by
  rw [next]
  simp [h, hfind]

theorem next_nothing (hfind : find src = .ok none) :
    next find stop len last src = next find stop len last (src + 1) := by
  by_cases h : src ≤ len
  · rw [next]
    simp [h, hfind]
  · rw [next_past (by omega), next_past (by omega)]

theorem next_passed (hfind : Passed find stop last src) :
    next find stop len last src = next find stop len last (src + 1) := by
  obtain ⟨a, ha, hstop⟩ := hfind
  by_cases h : src ≤ len
  · rw [next]
    simp [h, ha, hstop]
  · rw [next_past (by omega), next_past (by omega)]

theorem next_taken (h : src ≤ len) (hfind : find src = .ok (some a))
    (hstop : some (stop a) ≠ last) : next find stop len last src = .ok (some (src, a)) := by
  rw [next]
  simp [h, hfind, hstop]

theorem next_some (h : next find stop len last src = .ok (some (i, a))) :
    src ≤ i ∧ i ≤ len ∧ find i = .ok (some a) ∧ some (stop a) ≠ last := by
  induction hn : len + 1 - src using Nat.strongRecOn generalizing src with
  | ind n ih =>
      rw [next] at h
      split at h
      · rename_i hle
        split at h
        · simp at h
        · have := ih _ (by omega) h rfl
          exact ⟨by omega, this.2⟩
        · rename_i a' hfind
          split at h
          · have := ih _ (by omega) h rfl
            exact ⟨by omega, this.2⟩
          · rename_i hstop
            simp only [Except.ok.injEq, Option.some.injEq, Prod.mk.injEq] at h
            obtain ⟨rfl, rfl⟩ := h
            exact ⟨Nat.le_refl _, hle, hfind, hstop⟩
      · simp at h

/-! ## All finds -/

@[simp]
theorem upTo_zero : upTo find stop len 0 last src = .ok [] := rfl

theorem upTo_past (h : len < src) : upTo find stop len n last src = .ok [] := by
  cases n with
  | zero => rfl
  | succ n => simp [upTo, next_past h]

theorem upTo_congr {src' : Nat}
    (h : next find stop len last src = next find stop len last src') :
    upTo find stop len n last src = upTo find stop len n last src' := by
  cases n with
  | zero => rfl
  | succ n => rw [upTo, upTo, h]

theorem upTo_error (h : src ≤ len) (hfind : find src = .error e) :
    upTo find stop len (n + 1) last src = .error e := by
  rw [upTo, next_error h hfind]

theorem upTo_taken (h : src ≤ len) (hfind : find src = .ok (some a))
    (hstop : some (stop a) ≠ last) :
    upTo find stop len (n + 1) last src =
      (upTo find stop len n (some (stop a)) (stop a)).map ((src, a) :: ·) := by
  rw [upTo, next_taken h hfind hstop]

/-- What is found lies in the text from `src` on, one find behind the other. -/
def InOrder (stop : α → Nat) (len : Nat) : Nat → List (Nat × α) → Prop
  | _, [] => True
  | src, x :: rest =>
      src ≤ x.1 ∧ x.1 ≤ stop x.2 ∧ stop x.2 ≤ len ∧ InOrder stop len (stop x.2) rest

theorem upTo_inOrder (hforward : Forward find stop len)
    (h : upTo find stop len n last src = .ok found) : InOrder stop len src found := by
  induction n generalizing last src found with
  | zero =>
      cases h
      trivial
  | succ n ih =>
      rw [upTo] at h
      split at h
      · simp at h
      · cases h
        trivial
      · rename_i i a hnext
        have hi := next_some hnext
        have ha := hforward i a hi.2.1 hi.2.2.1
        cases hrest : upTo find stop len n (some (stop a)) (stop a) with
        | error e => simp [hrest, Except.map] at h
        | ok rest =>
            rw [hrest] at h
            cases h
            exact ⟨hi.1, ha.1, ha.2, ih hrest⟩

theorem room_decreases (hforward : Forward find stop len)
    (h : next find stop len last src = .ok (some (i, a))) :
    room find stop len (some (stop a)) (stop a) < room find stop len last src := by
  have hi := next_some h
  have ha := hforward i a hi.2.1 hi.2.2.1
  have hold : len + 1 - i ≤ room find stop len last src := by
    by_cases hpassed : Passed find stop last src
    · obtain ⟨a', ha', hstop⟩ := hpassed
      have hne : i ≠ src := by
        rintro rfl
        rw [ha'] at hi
        simp_all
      simp only [room, show Passed find stop last src from ⟨a', ha', hstop⟩, if_true]
      omega
    · simp only [room, hpassed, if_false]
      omega
  by_cases hempty : stop a = i
  · have hpassed : Passed find stop (some (stop a)) (stop a) :=
      ⟨a, by rw [hempty]; exact hi.2.2.1, rfl⟩
    simp only [room, hpassed, if_true] at hold ⊢
    omega
  · have hnew : room find stop len (some (stop a)) (stop a) ≤ len + 1 - stop a := by
      simp only [room]
      split <;> omega
    omega

theorem room_succ_le : room find stop len last (src + 1) ≤ room find stop len last src := by
  simp only [room]
  split <;> split <;> omega

theorem next_of_no_room (hsrc : src ≤ len) (h : room find stop len last src = 0) :
    next find stop len last src = .ok none := by
  simp only [room] at h
  split at h
  · rename_i hpassed
    rw [next_passed hpassed, next_past (by omega)]
  · omega

theorem upTo_length (hforward : Forward find stop len)
    (h : upTo find stop len n last src = .ok found) :
    found.length ≤ room find stop len last src := by
  induction n generalizing last src found with
  | zero =>
      cases h
      simp
  | succ n ih =>
      rw [upTo] at h
      split at h
      · simp at h
      · cases h
        simp
      · rename_i i a hnext
        have hless := room_decreases hforward hnext
        cases hrest : upTo find stop len n (some (stop a)) (stop a) with
        | error e => simp [hrest, Except.map] at h
        | ok rest =>
            rw [hrest] at h
            cases h
            have := ih hrest
            simp only [List.length_cons]
            omega

theorem upTo_succ (hforward : Forward find stop len) (hsrc : src ≤ len)
    (hn : room find stop len last src ≤ n) :
    upTo find stop len (n + 1) last src = upTo find stop len n last src := by
  induction n generalizing last src with
  | zero => simp [upTo, next_of_no_room hsrc (Nat.le_zero.mp hn)]
  | succ n ih =>
      rw [upTo, upTo]
      cases hnext : next find stop len last src with
      | error e => rfl
      | ok r =>
          rcases r with _ | ⟨i, a⟩
          · rfl
          · have hi := next_some hnext
            have ha := hforward i a hi.2.1 hi.2.2.1
            have hless := room_decreases hforward hnext
            simp only
            rw [ih ha.2 (by omega)]

theorem upTo_eq_of_room (hforward : Forward find stop len) (hsrc : src ≤ len)
    (hm : room find stop len last src ≤ m) (hmn : m ≤ n) :
    upTo find stop len n last src = upTo find stop len m last src := by
  induction hmn with
  | refl => rfl
  | step hmn ih => rw [upTo_succ hforward hsrc (Nat.le_trans hm hmn), ih]

theorem upTo_take (hmn : m ≤ n) (h : upTo find stop len n last src = .ok found) :
    upTo find stop len m last src = .ok (found.take m) := by
  induction n generalizing m last src found with
  | zero =>
      obtain rfl := Nat.le_zero.mp hmn
      rfl
  | succ n ih =>
      cases m with
      | zero => rfl
      | succ m =>
          rw [upTo] at h ⊢
          split at h
          · simp at h
          · cases h
            rfl
          · rename_i i a hnext
            cases hrest : upTo find stop len n (some (stop a)) (stop a) with
            | error e => simp [hrest, Except.map] at h
            | ok rest =>
                rw [hrest] at h
                cases h
                simp [ih (Nat.le_of_succ_le_succ hmn) hrest, Except.map]

theorem room_start : room find stop len none 0 = len + 1 := by
  simp [room, Passed]

/-! ## Replacing what is found -/

section Splice

variable (s : List β) (stop) (repl : ω → Nat × α → Except ε (ω × List β))

def logged (w : ω × List (Nat × α)) (x : Nat × α) :
    Except ε ((ω × List (Nat × α)) × List β) :=
  (repl w.1 x).map fun (w', text) => ((w', w.2 ++ [x]), text)

/-- The text from `src` on with every find replaced, in order.  A replacement may
depend on what the ones before have done. -/
def splice : ω → Nat → List (Nat × α) → Except ε (ω × List β)
  | w, src, [] => .ok (w, s.drop src)
  | w, src, x :: rest =>
      match repl w x with
      | .error e => .error e
      | .ok (w, text) =>
          (splice w (stop x.2) rest).map fun (w, more) =>
            (w, (s.drop src).take (x.1 - src) ++ text ++ more)

end Splice

variable {s : List β} {repl : ω → Nat × α → Except ε (ω × List β)} {w : ω}

theorem splice_skip (hsrc : src < s.length) (h : InOrder stop s.length (src + 1) found) :
    splice stop s repl w src found =
      (splice stop s repl w (src + 1) found).map
        fun (w, text) => (w, s.get ⟨src, hsrc⟩ :: text) := by
  cases found with
  | nil => simp [splice, Except.map, List.getElem_cons_drop]
  | cons x rest =>
      have hx := h.1
      have hgap : (s.drop src).take (x.1 - src) =
          s.get ⟨src, hsrc⟩ :: (s.drop (src + 1)).take (x.1 - (src + 1)) := by
        rw [← List.getElem_cons_drop hsrc, show x.1 - src = x.1 - (src + 1) + 1 by omega]
        rfl
      simp only [splice]
      rcases repl w x with e | ⟨w', text⟩
      · rfl
      · simp only [hgap]
        cases splice stop s repl w' (stop x.2) rest <;> simp [Except.map]

theorem splice_logged (log : List (Nat × α)) :
    splice stop s (logged repl) (w, log) src found =
      (splice stop s repl w src found).map fun (w, text) => ((w, log ++ found), text) := by
  induction found generalizing w log src with
  | nil => simp [splice, Except.map]
  | cons x rest ih =>
      simp only [splice, logged]
      rcases repl w x with e | ⟨w', text⟩
      · rfl
      · simp only [Except.map, ih]
        cases splice stop s repl w' (stop x.2) rest <;> simp

theorem splice_self
    (hself : ∀ w i a, i ≤ stop a → stop a ≤ s.length →
      repl w (i, a) = .ok (w, (s.drop i).take (stop a - i)))
    (h : InOrder stop s.length src found) :
    splice stop s repl w src found = .ok (w, s.drop src) := by
  induction found generalizing src with
  | nil => rfl
  | cons x rest ih =>
      obtain ⟨i, a⟩ := x
      obtain ⟨hi, ha, hin, hrest⟩ := h
      simp only at hi ha hin
      simp only [splice, hself w i a ha hin, ih hrest, Except.map]
      obtain ⟨k, rfl⟩ := Nat.exists_eq_add_of_le hi
      obtain ⟨l, hl⟩ := Nat.exists_eq_add_of_le ha
      have hmatch : (s.drop (src + k)).take l ++ s.drop (src + k + l) = s.drop (src + k) := by
        rw [← List.drop_drop (i := l), List.take_append_drop]
      rw [hl, Nat.add_sub_cancel_left, Nat.add_sub_cancel_left, List.append_assoc, hmatch,
        ← List.drop_drop, List.take_append_drop]

end Scanning
