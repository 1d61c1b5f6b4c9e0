import Luatier.Stdlib.PatternSpec

/-!
# The first outcome of a pattern

The first outcome that the matcher finds by its own counts is the first outcome of the
pattern, unless it comes upon a balanced text that is too deep for its count.
-/

namespace Luatier.Pattern

open Backtracking

variable {ct : Ctype} {s : List UInt8}

theorem Piece.outcomes_upTo {ends ends' : Ends}
    (h : ∀ x y i j, ends x y i = some j → ends' x y i = some j) (piece : Piece) (o : Outcome) :
    UpTo none (piece.outcomes ct s ends o) (piece.outcomes ct s ends' o) := by
  cases piece with
  | balance x y =>
      simp only [outcomes]
      cases hend : ends x y o.1 with
      | none => exact .unknown _ _
      | some j =>
          rw [h x y o.1 j hend]
          exact .refl _
  | _ => exact .refl _

/-- Where more ends are known, the outcomes are the same up to the first end that was
not. -/
theorem outcomes_upTo {ends ends' : Ends}
    (h : ∀ x y i j, ends x y i = some j → ends' x y i = some j) (pieces : List Piece)
    (levels : Nat) (o : Outcome) :
    UpTo none (outcomes ct s ends pieces levels o) (outcomes ct s ends' pieces levels o) := by
  induction pieces generalizing levels o with
  | nil => exact .refl _
  | cons piece pieces ih =>
      rw [outcomes, outcomes]
      by_cases hlevels : levels = 0
      · rw [if_pos hlevels, if_pos hlevels]
        exact .refl _
      · rw [if_neg hlevels, if_neg hlevels]
        exact (Piece.outcomes_upTo h piece o).andThen fun o' => ih _ o'

/-- Before it stops, a match from `si` on comes upon no text that is too deep for an
`int`, and reads nothing behind the subject. -/
def Determined (ct : Ctype) (s p : List UInt8) (si : Nat) : Prop :=
  ∀ e, (outcomes ct s (balancedInt s) (parse p) kMaxMatchDepth (si, [])).head? =
    some (.error e) → e ≠ none ∧ e ≠ some .readPastEnd

theorem Wraps.length_le {x y : UInt8} {text : List UInt8} (h : Wraps x y text 1) :
    2 ^ 32 ≤ text.length := by
  obtain ⟨k, hk, hy, hopen, hdeep⟩ := h
  have hbelow : ∀ n ≤ k + 1, (text.take n).count y <
      (text.take n).countP (fun c => c = x ∧ c ≠ y) + 1 := by
    intro n hn
    induction n with
    | zero => simp
    | succ n ih =>
        have hlt : n < text.length := by omega
        have hbefore := ih (Nat.le_of_succ_le hn)
        have hne := hopen (n + 1) hn
        rw [← List.take_append_getElem hlt, List.count_append, List.countP_append] at hne ⊢
        have hone : [text[n]].count y ≤ 1 := List.count_le_length.trans (by simp)
        omega
  have hpositive := hbelow (k + 1) le_rfl
  have hopens : (text.take k).countP (fun c => c = x ∧ c ≠ y) ≤ k :=
    List.countP_le_length.trans (List.length_take_le _ _)
  have hyk : text[k] = y := by
    rw [List.getElem?_eq_getElem hk] at hy
    exact Option.some.inj hy
  have hlast : (text.take (k + 1)).countP (fun c => c = x ∧ c ≠ y) =
      (text.take k).countP (fun c => c = x ∧ c ≠ y) := by
    rw [← List.take_append_getElem hk, List.countP_append, hyk]
    simp
  omega

theorem determined_of_length (ct : Ctype) (p : List UInt8) {si : Nat} (hsi : si ≤ s.length)
    (hlength : s.length ≤ 2 ^ 32) : Determined ct s p si := by
  intro e he
  have hends : EndsIn s (balancedInt s) := by
    intro x y i j hend
    have hcounted := (countedEnd_eq hend).1
    exact endsIn_counted s x y i j (congrArg some hcounted)
  refine outcomes_error hends ?_ (parse_reads p) (List.mem_of_head? he) hsi (by simp [Ordered])
  · intro x y i hnone
    unfold balancedInt balanced at hnone
    split_ifs at hnone with hwraps
    have hle := hwraps.2.length_le
    have hlt := (List.getElem?_eq_some_iff.mp hwraps.1).1
    rw [List.length_drop] at hle
    omega

/-- From `si` on, `match` succeeds with the end and the captures of the first outcome,
fails where there is none, or raises the error that it comes upon first. -/
def MatchesFirst (ct : Ctype) (s p : List UInt8) (matchEnd si : Nat) : Prop :=
  match (outcomes ct s (balanced s) (parse p) kMaxMatchDepth (si, [])).head? with
  | some (.ok o) => ∃ ms, matchAt ct s kMaxMatchDepth { matchEnd } si p = .ok (true, ms) ∧
      (ms.matchEnd, ms.captures) = o
  | none => matchAt ct s kMaxMatchDepth { matchEnd } si p = .ok (false, { matchEnd })
  | some (.error e) => ∃ f, e = some f ∧ f ≠ .readPastEnd ∧
      matchAt ct s kMaxMatchDepth { matchEnd } si p = .error f

theorem matchAt_counted (ct : Ctype) (s p : List UInt8) (matchEnd si : Nat) :
    Finds found Raised (outcomes ct s (counted s) (parse p) kMaxMatchDepth (si, []))
      { matchEnd } (matchAt ct s kMaxMatchDepth { matchEnd } si p) :=
  matchAt_correct ct s kMaxMatchDepth kMaxMatchDepth p { matchEnd } si rfl

theorem match_first_outcome (ct : Ctype) (s p : List UInt8) (matchEnd si : Nat)
    (h : Determined ct s p si) : MatchesFirst ct s p matchEnd si := by
  have hfinds := matchAt_counted ct s p matchEnd si
  have hknown : (outcomes ct s (balancedInt s) (parse p) kMaxMatchDepth (si, [])).head? ≠
      some (.error none) := fun hnone => (h none hnone).1 rfl
  have hcounted : _ = (outcomes ct s (counted s) (parse p) kMaxMatchDepth (si, [])).head? :=
    (outcomes_upTo (fun x y i j hend => congrArg some (countedEnd_eq hend).1) _ _ _).head? hknown
  have hbalanced : _ = (outcomes ct s (balanced s) (parse p) kMaxMatchDepth (si, [])).head? :=
    (outcomes_upTo (fun x y i j hend => congrArg some (countedEnd_eq hend).2) _ _ _).head? hknown
  unfold MatchesFirst
  unfold Finds at hfinds
  unfold Determined at h
  rw [← hbalanced]
  rw [← hcounted] at hfinds
  generalize (outcomes ct s (balancedInt s) (parse p) kMaxMatchDepth (si, [])).head? = first
    at h hfinds ⊢
  rcases first with _ | e | o
  · exact hfinds
  · obtain ⟨f, rfl, herror⟩ := hfinds
    exact ⟨f, rfl, fun hf => (h _ rfl).2 (congrArg some hf), herror⟩
  · exact hfinds

/-- A capture of a balanced text, at the second place where one starts. -/
theorem match_first_outcome_nested :
    let s := ['(', 'a', '(', 'b', ')', 'c'].map Char.toUInt8
    let p := ['(', '%', 'b', '(', ')', ')'].map Char.toUInt8
    MatchesFirst cLocale s p 0 2 ∧
      (outcomes cLocale s (balanced s) (parse p) kMaxMatchDepth (2, [])).head? =
        some (.ok (5, [(2, .closed 5)])) :=
  ⟨match_first_outcome cLocale _ _ 0 2
    (determined_of_length cLocale _ (by decide) (by decide)), by decide +kernel⟩

/-! ## A text that is too deep -/

def brackets (n : Nat) : List UInt8 :=
  '('.toUInt8 :: (List.replicate n '('.toUInt8 ++ [')'.toUInt8])

theorem balanceLoop_replicate {x y : UInt8} (hne : x ≠ y) (rest : List UInt8)
    (n depth j : Nat) :
    balanceLoop x y (List.replicate n x ++ rest) (Int32.ofNat depth) j =
      balanceLoop x y rest (Int32.ofNat (depth + n)) (j + n) := by
  induction n generalizing depth j with
  | zero => rfl
  | succ n ih =>
      rw [List.replicate_succ, List.cons_append, balanceLoop, if_neg hne, if_pos rfl,
        show Int32.ofNat depth + 1 = Int32.ofNat (depth + 1) by simp [Int32.ofNat_add], ih,
        Nat.add_right_comm depth, Nat.add_right_comm j]
      rfl

theorem countedEnd_brackets {n : Nat} (hn : n % 2 ^ 32 = 0) :
    countedEnd (brackets n) '('.toUInt8 ')'.toUInt8 0 = some (n + 2) := by
  have hdeep := balanceLoop_replicate (by decide : '('.toUInt8 ≠ ')'.toUInt8) [')'.toUInt8]
    n 1 1
  have hzero : Int32.ofNat (1 + n) - 1 = 0 := by
    rw [int_pred (by omega), int_eq_zero_iff]
    simpa using hn
  have hstart : (brackets n)[0]? = some '('.toUInt8 := rfl
  rw [countedEnd, if_pos hstart, brackets, List.drop_succ_cons, List.drop_zero,
    show (1 : Int32) = Int32.ofNat 1 from rfl, hdeep, balanceLoop, if_pos rfl, if_pos hzero]
  congr 1
  omega

theorem balancedEnd_brackets {n : Nat} (hn : n ≠ 0) :
    balancedEnd (brackets n) '('.toUInt8 ')'.toUInt8 0 = none := by
  have hstart : (brackets n)[0]? = some '('.toUInt8 := rfl
  rw [balancedEnd, if_pos hstart, brackets]
  simp only [List.drop_succ_cons, List.drop_zero, Option.map_eq_none_iff, List.find?_eq_none,
    decide_eq_true_eq]
  intro k _
  have hne : '('.toUInt8 ≠ ')'.toUInt8 := by decide
  rw [List.take_append, List.count_append, List.countP_append, List.take_replicate,
    List.count_replicate, List.countP_replicate, List.length_replicate]
  cases hk : k - n with
  | zero => simp [hne]
  | succ m =>
      have hmin : min k n = n := by omega
      simp [hmin, hne]
      omega

/-- The balanced text has no end, but the count of `match_balance` comes down to zero. -/
theorem not_matchesFirst_brackets {n : Nat} (hn : n % 2 ^ 32 = 0) (hzero : n ≠ 0) :
    ¬ MatchesFirst cLocale (brackets n) (['%', 'b', '(', ')'].map Char.toUInt8) 0 0 := by
  intro h
  have hparse : parse (['%', 'b', '(', ')'].map Char.toUInt8) =
      [.balance '('.toUInt8 ')'.toUInt8] := by decide +kernel
  have hfinds := matchAt_counted cLocale (brackets n)
    (['%', 'b', '(', ')'].map Char.toUInt8) 0 0
  have hnone : (outcomes cLocale (brackets n) (balanced (brackets n))
      [.balance '('.toUInt8 ')'.toUInt8] kMaxMatchDepth (0, [])).head? = none := by
    simp [outcomes, Piece.outcomes, balanced, balancedEnd_brackets hzero, kMaxMatchDepth]
  have hsome : (outcomes cLocale (brackets n) (counted (brackets n))
      [.balance '('.toUInt8 ')'.toUInt8] kMaxMatchDepth (0, [])).head? =
        some (.ok (n + 2, [])) := by
    simp [outcomes, Piece.outcomes, counted, countedEnd_brackets hn, kMaxMatchDepth,
      Piece.deepens]
  rw [MatchesFirst, hparse, hnone] at h
  rw [hparse, show matchAt _ _ _ _ _ _ = _ from h] at hfinds
  rw [hfinds.of_failure.1] at hsome
  contradiction

theorem match_brackets :
    ∃ (ct : Ctype) (s p : List UInt8), ¬ MatchesFirst ct s p 0 0 :=
  ⟨cLocale, brackets (2 ^ 32), ['%', 'b', '(', ')'].map Char.toUInt8,
    not_matchesFirst_brackets (Nat.mod_self _) (by decide)⟩

end Luatier.Pattern
