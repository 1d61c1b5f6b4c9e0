import Luatier.Stdlib.PatternSets

/-!
# The depth counter of the matcher

A failed attempt gives back the state that it was made from, its counter included.
Hence every call of `match` in one pass is made at the same depth, and a budget of
calls beyond the counter changes nothing.
-/

namespace Luatier.Pattern

open Backtracking

def SameAt (d : Int) (rematch rematch' : Matcher) : Prop :=
  ∀ ms si p, ms.matchdepth = d → rematch ms si p = rematch' ms si p

def Restores (rematch : Matcher) : Prop :=
  ∀ ms si p ms', rematch ms si p = .ok (false, ms') → ms' = ms

theorem matchAt_restores (ct : Ctype) (s : List UInt8) (budget : Nat) :
    Restores (matchAt ct s budget) := by
  intro ms si p ms' h
  have hfinds := matchAt_correct ct s budget ms.matchdepth p ms si rfl
  rw [h] at hfinds
  exact hfinds.of_failure.2

section Calls

variable {d : Int} {rematch rematch' : Matcher} {ms : MatchState} (ct : Ctype)
  (s : List UInt8)

theorem SameAt.orElse (h : SameAt d rematch rematch') (hback : Restores rematch')
    (hms : ms.matchdepth = d) (si : Nat) (p : List UInt8)
    (k k' : MatchState → Except Failure (Bool × MatchState)) (hk : k ms = k' ms) :
    (rematch ms si p >>= fun x => if x.1 = true then pure (true, x.2) else k x.2) =
      rematch' ms si p >>= fun x => if x.1 = true then pure (true, x.2) else k' x.2 := by
  rw [h ms si p hms]
  rcases hr : rematch' ms si p with e | ⟨_ | _, ms'⟩
  · rfl
  · rw [hback _ _ _ _ hr]
    exact hk
  · rfl

theorem expandDown_same (h : SameAt d rematch rematch') (hback : Restores rematch')
    (hms : ms.matchdepth = d) (si : Nat) (ep : List UInt8) (n : Nat) :
    expandDown rematch ms si ep n = expandDown rematch' ms si ep n := by
  induction n with
  | zero => exact h _ _ _ hms
  | succ n ih =>
      exact h.orElse hback hms (si + (n + 1)) ep (fun ms => expandDown rematch ms si ep n)
        (fun ms => expandDown rematch' ms si ep n) ih

theorem maxExpand_same (h : SameAt d rematch rematch') (hback : Restores rematch')
    (hms : ms.matchdepth = d) (si : Nat) (p ep : List UInt8) :
    maxExpand ct s rematch ms si p ep = maxExpand ct s rematch' ms si p ep := by
  unfold maxExpand
  congr
  funext n
  exact expandDown_same h hback hms si ep n

theorem minExpand_same (h : SameAt d rematch rematch') (hback : Restores rematch')
    (hms : ms.matchdepth = d) (si : Nat) (p ep : List UInt8) :
    minExpand ct s rematch ms si p ep = minExpand ct s rematch' ms si p ep := by
  induction hn : s.length - si using Nat.strongRecOn generalizing si with
  | ind n ih =>
      rw [minExpand_eq, minExpand_eq]
      cases hsingle : singleMatch ct s si p with
      | error e =>
          exact h.orElse hback hms si ep (fun _ => .error e) (fun _ => .error e) rfl
      | ok hit =>
          cases hit with
          | false =>
              exact h.orElse hback hms si ep (fun ms => pure (false, ms))
                (fun ms => pure (false, ms)) rfl
          | true =>
              have hlt := singleMatch_lt hsingle
              exact h.orElse hback hms si ep (fun ms => minExpand ct s rematch ms (si + 1) p ep)
                (fun ms => minExpand ct s rematch' ms (si + 1) p ep)
                (ih (s.length - (si + 1)) (by omega) (si + 1) rfl)

theorem startCapture_same (h : SameAt d rematch rematch') (hms : ms.matchdepth = d)
    (si : Nat) (p : List UInt8) (position : Bool) :
    startCapture rematch ms si p position = startCapture rematch' ms si p position := by
  have hcall := fun captures => h { ms with captures } si p hms
  simp only [startCapture, hcall]

theorem endCapture_same (h : SameAt d rematch rematch') (hms : ms.matchdepth = d)
    (si : Nat) (p : List UInt8) :
    endCapture rematch ms si p = endCapture rematch' ms si p := by
  have hcall := fun captures => h { ms with captures } si p hms
  simp only [endCapture, hcall]

theorem matchBalance_same (h : SameAt d rematch rematch') (hms : ms.matchdepth = d)
    (si : Nat) (p : List UInt8) :
    matchBalance s rematch ms si p = matchBalance s rematch' ms si p := by
  unfold matchBalance
  split
  · split
    · rfl
    · split
      · rfl
      · exact h _ _ _ hms
  · rfl

theorem matchItem_same (h : SameAt d rematch rematch') (hback : Restores rematch')
    (hms : ms.matchdepth = d) (si : Nat) (p0 : UInt8) (rest : List UInt8) :
    matchItem ct s rematch ms si p0 rest = matchItem ct s rematch' ms si p0 rest := by
  unfold matchItem
  have hmax := fun si p ep => maxExpand_same ct s h hback hms si p ep
  have hmin := fun si p ep => minExpand_same ct s h hback hms si p ep
  have hagain := fun si p => h ms si p hms
  simp only [hmax, hmin, hagain]
  congr
  funext ep
  split_ifs
  · rfl
  · rfl
  · rfl
  · congr
    funext hit
    cases hit with
    | false => rfl
    | true =>
        simp only [if_true]
        rcases hr : rematch' ms (si + 1) ep.tail with e | ⟨_ | _, ms'⟩
        · rfl
        · have := hback _ _ _ _ hr
          subst this
          simp only [bind, Except.bind, Bool.false_eq_true, if_false, hagain]
        · rfl
  · rfl

theorem matchEscape_same (h : SameAt d rematch rematch') (hback : Restores rematch')
    (hms : ms.matchdepth = d) (si : Nat) (rest : List UInt8) :
    matchEscape ct s rematch ms si rest = matchEscape ct s rematch' ms si rest := by
  cases rest with
  | nil => rfl
  | cons spec rest =>
      simp only [matchEscape]
      rw [matchBalance_same s h hms, matchItem_same ct s h hback hms]

theorem matchStep_same (h : SameAt d rematch rematch') (hback : Restores rematch')
    (hms : ms.matchdepth = d) (si : Nat) (p : List UInt8) :
    matchStep ct s rematch ms si p = matchStep ct s rematch' ms si p := by
  cases p with
  | nil => rfl
  | cons p0 rest =>
      simp only [matchStep]
      rw [startCapture_same h hms, startCapture_same h hms, endCapture_same h hms,
        matchEscape_same ct s h hback hms, matchItem_same ct s h hback hms]

theorem matchLoop_same (h : SameAt d rematch rematch') (hback : Restores rematch')
    (hms : ms.matchdepth = d) (si : Nat) (p : List UInt8) :
    matchLoop ct s rematch ms si p = matchLoop ct s rematch' ms si p := by
  induction hn : p.length using Nat.strongRecOn generalizing si p with
  | ind n ih =>
      have hstep := matchStep_same ct s h hback hms si p
      rw [matchLoop, matchLoop]
      split <;> rename_i hpass <;> rw [hstep] at hpass <;> split <;> rename_i hpass' <;>
        cases hpass.symm.trans hpass'
      · rfl
      · rfl
      · have hlt := matchStep_length ct s rematch' hpass
        exact ih _ (by omega) _ _ rfl

end Calls

/-- A budget of calls beyond the counter changes nothing. -/
theorem matchAt_budget (ct : Ctype) (s : List UInt8) {n budget : Nat} (h : n ≤ budget) :
    SameAt n (matchAt ct s budget) (matchAt ct s n) := by
  induction n generalizing budget with
  | zero =>
      intro ms si p hms
      cases budget with
      | zero => rfl
      | succ budget =>
          have hzero : ms.matchdepth = 0 := hms
          simp [matchAt, matchDepthGuard, hzero, bind, Except.bind, throw, throwThe,
            MonadExceptOf.throw]
  | succ n ih =>
      intro ms si p hms
      cases budget with
      | zero => exact absurd h (Nat.not_succ_le_zero n)
      | succ budget =>
          have hbody := ih (Nat.le_of_succ_le_succ h)
          have hdepth : MatchState.matchdepth { ms with matchdepth := ms.matchdepth - 1 } = n := by
            simp [hms]
          simp only [matchAt, matchDepthGuard]
          rw [matchLoop_same ct s hbody (matchAt_restores ct s n) hdepth si p]

/-- A failed attempt leaves no trace, from any place and with any captures and counter. -/
theorem failed_match_restores (ct : Ctype) (s p : List UInt8) (budget si : Nat)
    {ms ms' : MatchState} (h : matchAt ct s budget ms si p = .ok (false, ms')) :
    ms'.captures = ms.captures ∧ ms'.matchdepth = ms.matchdepth ∧
      ms'.matchEnd = ms.matchEnd := by
  obtain rfl := matchAt_restores ct s budget ms si p ms' h
  exact ⟨rfl, rfl, rfl⟩

/-- Two captures are closed, and opened again or dropped before the attempt fails. -/
theorem failed_match_restores_backtracking :
    let ms : MatchState := { matchdepth := 7, captures := [(0, .unfinished)] }
    ∃ ms', matchAt cLocale (bytes ['a', 'a', 'b']) 7 ms 0
        (bytes ['a', '*', ')', '(', 'b', ')', 'c']) = .ok (false, ms') ∧
      ms'.captures = ms.captures ∧ ms'.matchdepth = ms.matchdepth ∧
        ms'.matchEnd = ms.matchEnd :=
  let ms : MatchState := { matchdepth := 7, captures := [(0, .unfinished)] }
  have h : matchAt cLocale (bytes ['a', 'a', 'b']) 7 ms 0
      (bytes ['a', '*', ')', '(', 'b', ')', 'c']) = .ok (false, ms) := by decide +kernel
  ⟨ms, h, failed_match_restores _ _ _ _ _ h⟩

end Luatier.Pattern
