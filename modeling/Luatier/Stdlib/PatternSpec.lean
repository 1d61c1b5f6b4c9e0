import Mathlib.Data.List.Induction
import Luatier.Lib.Backtracking
import Luatier.Stdlib.PatternSemantics

/-!
# The matcher finds the first outcome

Every call of `match` is a search with backtracking for the outcomes of the
pattern from its place on.  The induction is on the budget of calls, and below it
on the text of the pattern, which gets shorter with every `goto init`.  Balanced
texts end where the count of `match_balance` says.
-/

namespace Luatier.Pattern

open Backtracking

/-! ## Sets and single items -/

variable {ct : Ctype} {s : List UInt8}

theorem bracketLoop_eq (c : UInt8) (found : Bool) {p : List UInt8} (hp : p ≠ []) :
    bracketLoop ct c found p =
      match (readMembers p).2 with
      | none => .error .missingBracket
      | some ep => .ok (some (found || (readMembers p).1.any (Member.holds ct c), ep)) := by
  fun_induction bracketLoop ct c found p with
  | case1 => exact absurd rfl hp
  | case2 found lo rest hm =>
      rw [readMembers_cons]
      simp [hm]
  | case3 found lo rest hit rest' hm =>
      rw [readMembers_cons]
      simp [hm, hit]
  | case4 found lo rest hit x rest' hm hx ih =>
      rw [ih (List.cons_ne_nil _ _), readMembers_cons lo]
      simp [hm, hit, hx, Bool.or_assoc]

theorem readMembers_eq_nil {p : List UInt8} : (readMembers p).1 = [] ↔ p = [] := by
  cases p with
  | nil => simp [readMembers]
  | cons lo rest =>
      rw [readMembers_cons]
      refine iff_of_false ?_ (List.cons_ne_nil _ _)
      split
      · simp
      · split_ifs <;> simp

theorem matchBracketClass_eq (ct : Ctype) (c : UInt8) (p : List UInt8) :
    matchBracketClass ct c p =
      match (readSet p).2 with
      | some ep => .ok ((readSet p).1.holds ct c, some ep)
      | none =>
          if (readSet p).1.members = [] then .ok (false, none) else .error .missingBracket := by
  have hloop (q : List UInt8) : bracketLoop ct c false q =
      match (readMembers q).2 with
      | some ep => .ok (some ((readMembers q).1.any (Member.holds ct c), ep))
      | none => if (readMembers q).1 = [] then .ok none else .error .missingBracket := by
    by_cases hnil : q = []
    · subst hnil
      rw [bracketLoop, readMembers]
      rfl
    · rw [bracketLoop_eq c false hnil]
      cases (readMembers q).2 with
      | none => simp only [readMembers_eq_nil, if_neg hnil]
      | some ep => simp
  simp only [matchBracketClass, hloop, readSet, CharSet.holds]
  cases (readMembers _).2 with
  | none =>
      by_cases hmembers : (readMembers (if p.head? = some '^'.toUInt8 then p.tail else p)).1 = []
      · simp only [hmembers, if_true]
        rfl
      · simp only [hmembers, if_false]
        rfl
  | some ep => simp [bind, Except.bind, pure, Except.pure]

/-- The single item at the start of a text is `t`: reading a character against
it says whether it matches, or that its set has no end. -/
def Reads (ct : Ctype) (s : List UInt8) (p : List UInt8) (t : Single) : Prop :=
  ∀ i, singleMatch ct s i p =
    if t.unclosed then .error .missingBracket else .ok (t.matchesAt ct s i)

theorem classEndLoop_ne_nil {p ep : List UInt8} (h : classEndLoop p = .ok ep) : p ≠ [] := by
  rintro rfl
  rw [classEndLoop] at h
  cases h

theorem matchBracketClass_single (ct : Ctype) {p ep : List UInt8} (c : UInt8)
    (h : classEnd '['.toUInt8 p = .ok ep) :
    if (Single.set (readSet p).1).unclosed then
      matchBracketClass ct c p = .error .missingBracket
    else ∃ ep', matchBracketClass ct c p = .ok ((readSet p).1.holds ct c, ep') := by
  have htext : (readSet p).1.members ≠ [] := by
    simp only [classEnd] at h
    exact readMembers_eq_nil.not.mpr (classEndLoop_ne_nil h)
  have hclosed : (readSet p).1.closed = (readSet p).2.isSome := rfl
  rw [matchBracketClass_eq, Single.unclosed, hclosed]
  cases (readSet p).2 with
  | none =>
      rw [if_neg htext]
      exact rfl
  | some ep => exact ⟨some ep, rfl⟩

theorem reads_readSingle {p0 : UInt8} {rest ep : List UInt8}
    (h : classEnd p0 rest = .ok ep) : Reads ct s (p0 :: rest) (readSingle p0 rest) := by
  intro i
  by_cases hany : p0 = '.'.toUInt8
  · subst hany
    simp only [singleMatch, readSingle, if_true, Single.matchesAt, Single.holds,
      Single.unclosed, Bool.false_eq_true, if_false]
    cases hc : s[i]? with
    | none =>
        have := List.getElem?_eq_none_iff.mp hc
        simp [this]
    | some c =>
        obtain ⟨hlt, -⟩ := List.getElem?_eq_some_iff.mp hc
        simp [hlt]
  by_cases hesc : p0 = '%'.toUInt8
  · subst hesc
    cases rest with
    | nil => cases h
    | cons x rest =>
        simp only [singleMatch, readSingle, Single.matchesAt, if_neg hany, if_true,
          Single.unclosed, Bool.false_eq_true, if_false]
        cases s[i]? with
        | none => rfl
        | some c => rfl
  by_cases hset : p0 = '['.toUInt8
  · subst hset
    have hscan (c : UInt8) := matchBracketClass_single ct c h
    simp only [singleMatch, readSingle, Single.matchesAt, if_neg hany, if_neg hesc, if_true]
    split_ifs at hscan ⊢
    · cases s[i]? with
      | none => simp [hscan 0, bind, Except.bind]
      | some c => simp [hscan c, bind, Except.bind]
    · cases s[i]? with
      | none =>
          obtain ⟨ep', hok⟩ := hscan 0
          simp [hok, bind, Except.bind, pure, Except.pure]
      | some c =>
          obtain ⟨ep', hok⟩ := hscan c
          simp [hok, bind, Except.bind, pure, Except.pure, Single.holds]
  · simp only [singleMatch, readSingle, if_neg hany, if_neg hesc, if_neg hset,
      Single.matchesAt, Single.holds, Single.unclosed, Bool.false_eq_true, if_false]
    cases s[i]? with
    | none => rfl
    | some c => simp [beq_eq_decide]

theorem run_eq_zero {t : Single} {i : Nat} (h : t.matchesAt ct s i = false) :
    t.run ct s i = 0 := by
  unfold Single.matchesAt at h
  unfold Single.run
  cases hc : s[i]? with
  | none =>
      rw [List.drop_eq_nil_of_le (List.getElem?_eq_none_iff.mp hc)]
      rfl
  | some c =>
      rw [hc] at h
      obtain ⟨hlt, rfl⟩ := List.getElem?_eq_some_iff.mp hc
      rw [List.drop_eq_getElem_cons hlt, List.takeWhile_cons_of_neg (by simpa using h)]
      rfl

theorem run_eq_succ {t : Single} {i : Nat} (h : t.matchesAt ct s i = true) :
    t.run ct s i = t.run ct s (i + 1) + 1 := by
  unfold Single.matchesAt at h
  unfold Single.run
  cases hc : s[i]? with
  | none =>
      rw [hc] at h
      cases h
  | some c =>
      rw [hc] at h
      obtain ⟨hlt, rfl⟩ := List.getElem?_eq_some_iff.mp hc
      have hholds : t.holds ct s[i] = true := h
      rw [List.drop_eq_getElem_cons hlt, List.takeWhile_cons, if_pos hholds]
      rfl

theorem run_le (ct : Ctype) (s : List UInt8) (t : Single) (i : Nat) :
    t.run ct s i ≤ s.length - i := by
  rw [← List.length_drop]
  exact (List.takeWhile_prefix _).length_le

theorem countMatches_eq {p : List UInt8} {t : Single} (h : Reads ct s p t) (i : Nat) :
    countMatches ct s p i =
      if t.unclosed then .error .missingBracket else .ok (t.run ct s i) := by
  have hread := h
  unfold Reads at hread
  by_cases ht : t.unclosed = true
  · simp only [ht, if_true] at hread ⊢
    rw [countMatches]
    split
    · rename_i e he
      exact congrArg _ (Except.error.inj (he.symm.trans (hread i)))
    · rename_i hfalse
      cases hfalse.symm.trans (hread i)
    · rename_i htrue
      cases htrue.symm.trans (hread i)
  · simp only [ht, Bool.false_eq_true, if_false] at hread ⊢
    fun_induction countMatches ct s p i with
    | case1 i e he => cases he.symm.trans (hread i)
    | case2 i hfalse => rw [run_eq_zero (Except.ok.inj ((hread i).symm.trans hfalse))]
    | case3 i htrue ih =>
        rw [run_eq_succ (Except.ok.inj ((hread i).symm.trans htrue)), ih]
        rfl

/-! ## Calls of `match` -/

def found (ms : MatchState) : Outcome := (ms.matchEnd, ms.captures)

/-- The error that the matcher raises is the one that stands among the outcomes. -/
abbrev Raised (o : Option Failure) (e : Failure) : Prop := o = some e

theorem finds_raised {ms : MatchState} (e : Failure)
    (outs : List (Except (Option Failure) Outcome)) :
    Finds found Raised (.error (some e) :: outs) ms (.error e) :=
  ⟨e, rfl, rfl⟩

section Calls

variable {ends : Ends} {d : Int} {rematch : Matcher}
  {outs : Outcome → List (Except (Option Failure) Outcome)} {p ep : List UInt8} {t : Single}
  {ms : MatchState} {i : Nat}

/-- Calls of `match` at depth `d` and a place of the pattern find the first of its
outcomes. -/
def CallsFind (d : Int) (rematch : Matcher)
    (outs : Outcome → List (Except (Option Failure) Outcome)) (ep : List UInt8) : Prop :=
  ∀ ms i, ms.matchdepth = d → Finds found Raised (outs (i, ms.captures)) ms (rematch ms i ep)

theorem expandDown_finds (h : CallsFind d rematch outs ep) (hms : ms.matchdepth = d)
    (i n : Nat) :
    Finds found Raised
      (andThen ((List.range (n + 1)).reverse.map fun k => .ok (i + k, ms.captures)) outs) ms
      (expandDown rematch ms i ep n) := by
  induction n with
  | zero => simpa [expandDown] using h ms i hms
  | succ n ih =>
      rw [List.range_succ, List.reverse_append, List.map_append, andThen_append]
      have hfirst := h ms (i + (n + 1)) hms
      have hboth := hfirst.orElse (k := fun ms => expandDown rematch ms i ep n) ih
      simpa [expandDown] using hboth

theorem maxExpand_finds (h : CallsFind d rematch outs ep) (hms : ms.matchdepth = d)
    (hp : Reads ct s p t) :
    Finds found Raised (andThen ((Piece.star t).outcomes ct s ends (i, ms.captures)) outs) ms
      (maxExpand ct s rematch ms i p ep) := by
  simp only [maxExpand, countMatches_eq hp i, Piece.outcomes, Single.orUnclosed]
  by_cases ht : t.unclosed = true
  · simp only [ht, if_true]
    exact finds_raised _ _
  · simp only [ht, Bool.false_eq_true, if_false]
    exact expandDown_finds h hms i _

theorem minExpand_eq (ct : Ctype) (s : List UInt8) (rematch : Matcher) (ms : MatchState)
    (i : Nat) (p ep : List UInt8) :
    minExpand ct s rematch ms i p ep =
      (rematch ms i ep >>= fun x =>
        if x.1 = true then pure (true, x.2)
        else
          match singleMatch ct s i p with
          | .error e => .error e
          | .ok false => pure (false, x.2)
          | .ok true => minExpand ct s rematch x.2 (i + 1) p ep) := by
  rw [minExpand]
  congr
  funext ⟨ok, ms⟩
  cases ok with
  | true => rfl
  | false =>
      simp only [Bool.false_eq_true, if_false]
      split
      all_goals
        rename_i h
        simp [h]

theorem minExpand_finds (h : CallsFind d rematch outs ep) (hms : ms.matchdepth = d)
    (hp : Reads ct s p t) :
    Finds found Raised (andThen ((Piece.minus t).outcomes ct s ends (i, ms.captures)) outs) ms
      (minExpand ct s rematch ms i p ep) := by
  induction hn : s.length - i using Nat.strongRecOn generalizing i with
  | ind n ih =>
      have hread := hp i
      have hstep {rest : List (Except (Option Failure) Outcome)}
          (hrest : Finds found Raised rest ms (match singleMatch ct s i p with
            | .error e => .error e
            | .ok false => pure (false, ms)
            | .ok true => minExpand ct s rematch ms (i + 1) p ep)) :=
        (h ms i hms).orElse (k := fun ms => match singleMatch ct s i p with
          | .error e => .error e
          | .ok false => pure (false, ms)
          | .ok true => minExpand ct s rematch ms (i + 1) p ep) hrest
      rw [minExpand_eq]
      by_cases ht : t.unclosed = true
      · simp only [Piece.outcomes, ht, if_true, andThen_ok, andThen_error, andThen_nil] at hread ⊢
        apply hstep
        rw [hread]
        exact finds_raised _ _
      · simp only [Piece.outcomes, ht, Bool.false_eq_true, if_false] at hread ⊢
        rw [List.range_succ_eq_map, List.map_cons, andThen_ok]
        apply hstep
        rw [hread]
        cases hm : t.matchesAt ct s i with
        | false =>
            rw [run_eq_zero hm]
            exact finds_failure
        | true =>
            have hlt : i < s.length := singleMatch_lt (hread.trans (congrArg _ hm))
            rw [run_eq_succ hm]
            have hrest := ih (s.length - (i + 1)) (by omega) (i := i + 1) rfl
            simp only [Piece.outcomes, ht, Bool.false_eq_true, if_false] at hrest
            simpa [Function.comp_def, Nat.add_assoc, Nat.add_comm 1] using hrest

/-! ### Captures -/

theorem lastUnfinished_append {cs : Captures} {c : Nat × CapEnd} {n : Nat}
    (hn : n ≤ cs.length) : lastUnfinished (cs ++ [c]) n = lastUnfinished cs n := by
  induction n with
  | zero => rfl
  | succ n ih =>
      rw [lastUnfinished, lastUnfinished, List.getElem?_append_left hn,
        ih ((Nat.le_succ n).trans hn)]

theorem lastUnfinished_some {cs : Captures} {n k : Nat} (h : lastUnfinished cs n = some k) :
    k < n ∧ cs[k]?.map Prod.snd = some .unfinished := by
  induction n with
  | zero => cases h
  | succ n ih =>
      rw [lastUnfinished] at h
      split_ifs at h with hn
      · cases h
        exact ⟨Nat.lt_succ_self _, hn⟩
      · exact ⟨(ih h).1.trans (Nat.lt_succ_self n), (ih h).2⟩

theorem setEnd_append_left {cs : Captures} {c : Nat × CapEnd} {k : Nat} {e : CapEnd}
    (hk : k < cs.length) : setEnd (cs ++ [c]) k e = setEnd cs k e ++ [c] := by
  induction cs generalizing k with
  | nil => cases hk
  | cons d cs ih =>
      cases k with
      | zero => rfl
      | succ k =>
          have := ih (Nat.lt_of_succ_lt_succ hk)
          simpa [setEnd] using this

theorem setEnd_append_right (cs : Captures) (c : Nat × CapEnd) (e : CapEnd) :
    setEnd (cs ++ [c]) cs.length e = cs ++ [(c.1, e)] := by
  induction cs with
  | nil => rfl
  | cons d cs ih => simpa [setEnd] using ih

theorem setEnd_reopen {cs : Captures} {k : Nat} {e : CapEnd}
    (h : cs[k]?.map Prod.snd = some .unfinished) :
    setEnd (setEnd cs k e) k .unfinished = cs := by
  induction cs generalizing k with
  | nil => simp at h
  | cons d cs ih =>
      cases k with
      | zero =>
          have hd : d.2 = .unfinished := by simpa using h
          simp [setEnd, ← hd]
      | succ k =>
          have := ih (k := k) (by simpa using h)
          simpa [setEnd] using this

theorem closeLast_append (j : Nat) (cs : Captures) (c : Nat × CapEnd) :
    closeLast j (cs ++ [c]) =
      if c.2 = .unfinished then some (cs ++ [(c.1, .closed j)])
      else (closeLast j cs).map (· ++ [c]) := by
  induction cs with
  | nil =>
      simp only [List.nil_append, closeLast]
      rfl
  | cons d cs ih =>
      rw [List.cons_append, closeLast, ih, closeLast]
      split_ifs
      all_goals cases closeLast j cs <;> simp_all

theorem closeLast_eq (j : Nat) (cs : Captures) :
    closeLast j cs = (lastUnfinished cs cs.length).map fun k => setEnd cs k (.closed j) := by
  induction cs using List.reverseRecOn with
  | nil => rfl
  | append_singleton cs c ih =>
      rw [closeLast_append, List.length_append, List.length_singleton, lastUnfinished,
        List.getElem?_append_right le_rfl, Nat.sub_self, lastUnfinished_append le_rfl, ih]
      by_cases hc : c.2 = .unfinished
      · simp [hc, setEnd_append_right]
      · cases hlast : lastUnfinished cs cs.length with
        | none => simp [hc]
        | some k =>
            have hk := (lastUnfinished_some hlast).1
            simp [hc, setEnd_append_left hk]

theorem startCapture_finds (h : CallsFind d rematch outs p) (hms : ms.matchdepth = d)
    (position : Bool) :
    Finds found Raised
      (outs (i, ms.captures ++ [(i, if position then .position else .unfinished)])) ms
      (startCapture rematch ms i p position) := by
  apply (h { ms with captures := ms.captures ++ [_] } i hms).undoing
    fun ms => { ms with captures := ms.captures.dropLast }
  simp

theorem endCapture_finds (h : CallsFind d rematch outs p) (hms : ms.matchdepth = d) :
    Finds found Raised (andThen (Piece.closing.outcomes ct s ends (i, ms.captures)) outs) ms
      (endCapture rematch ms i p) := by
  unfold endCapture
  simp only [Piece.outcomes, closeLast_eq]
  cases hlast : lastUnfinished ms.captures ms.captures.length with
  | none => exact finds_raised _ _
  | some k =>
      simp only [Option.map_some, andThen_ok, andThen_nil, List.append_nil]
      apply (h { ms with captures := setEnd ms.captures k (.closed i) } i hms).undoing
        fun ms => { ms with captures := setEnd ms.captures k .unfinished }
      show ({ ms with captures := setEnd (setEnd ms.captures k _) k _ } : MatchState) = ms
      rw [setEnd_reopen (lastUnfinished_some hlast).2]

/-! ### Balanced texts and back references -/

/-- Where `match_balance` finds the end. -/
def countedEnd (s : List UInt8) (x y : UInt8) (i : Nat) : Option Nat :=
  if s[i]? = some x then balanceLoop x y (s.drop (i + 1)) 1 (i + 1) else none

def counted (s : List UInt8) : Ends := fun x y i => some (countedEnd s x y i)

theorem balanceLoop_bounds {x y : UInt8} {rest : List UInt8} {depth : Int32} {j k : Nat}
    (h : balanceLoop x y rest depth j = some k) : j ≤ k ∧ k ≤ j + rest.length := by
  induction rest generalizing depth j with
  | nil => cases h
  | cons c rest ih =>
      rw [balanceLoop] at h
      rw [List.length_cons]
      split_ifs at h
      · obtain rfl := Option.some.inj h
        omega
      all_goals
        have := ih h
        omega

theorem endsIn_counted (s : List UInt8) : EndsIn s (counted s) := by
  intro x y i j h
  simp only [counted, Option.some.injEq, countedEnd] at h
  split_ifs at h with hx
  have hbounds := balanceLoop_bounds h
  have hlt := (List.getElem?_eq_some_iff.mp hx).1
  rw [List.length_drop] at hbounds
  omega

theorem matchBalance_finds {x y : UInt8} (h : CallsFind d rematch outs p)
    (hms : ms.matchdepth = d) :
    Finds found Raised
      (andThen ((Piece.balance x y).outcomes ct s (counted s) (i, ms.captures)) outs) ms
      (matchBalance s rematch ms i (x :: y :: p)) := by
  unfold matchBalance
  simp only [Piece.outcomes, counted, countedEnd]
  by_cases hx : s[i]? = some x
  · rw [if_neg (not_not_intro hx), if_pos hx]
    cases balanceLoop x y (s.drop (i + 1)) 1 (i + 1) with
    | none => exact finds_failure
    | some j => simpa using h ms j hms
  · rw [if_pos hx, if_neg hx]
    exact finds_failure

theorem Wraps.cons {x y c : UInt8} {rest : List UInt8} {depth depth' : Nat}
    (h : Wraps x y rest depth') (hdepth : 0 < depth)
    (hcount : depth' + (if c = y then 1 else 0) = depth + (if c = x ∧ c ≠ y then 1 else 0)) :
    Wraps x y (c :: rest) depth := by
  obtain ⟨k, hk, hy, hopen, hdeep⟩ := h
  have hlevels (n : Nat) : ((c :: rest).take (n + 1)).count y + depth' =
      (rest.take n).count y + (depth + if c = x ∧ c ≠ y then 1 else 0) := by
    rw [List.take_succ_cons, List.count_cons]
    simp only [beq_iff_eq]
    omega
  have hopens (n : Nat) : ((c :: rest).take (n + 1)).countP (fun c => c = x ∧ c ≠ y) =
      (rest.take n).countP (fun c => c = x ∧ c ≠ y) + if c = x ∧ c ≠ y then 1 else 0 := by
    rw [List.take_succ_cons, List.countP_cons]
    simp only [decide_eq_true_eq]
  refine ⟨k + 1, Nat.succ_lt_succ hk, by simpa using hy, fun k' hk' => ?_, ?_⟩
  · cases k' with
    | zero =>
        simp only [List.take_zero, List.count_nil, List.countP_nil]
        omega
    | succ k' =>
        have hne := hopen k' (Nat.le_of_succ_le_succ hk')
        have hcountY := hlevels k'
        have hcountX := hopens k'
        omega
  · have hcountY := hlevels (k + 1)
    have hcountX := hopens (k + 1)
    rw [hcountX]
    have heq : (rest.take (k + 1)).countP (fun c => c = x ∧ c ≠ y) +
        (if c = x ∧ c ≠ y then 1 else 0) + depth - ((c :: rest).take (k + 1 + 1)).count y =
        (rest.take (k + 1)).countP (fun c => c = x ∧ c ≠ y) + depth' -
          (rest.take (k + 1)).count y := by
      omega
    rw [heq]
    exact hdeep

theorem int_pred {depth : Nat} (hd : 0 < depth) :
    Int32.ofNat depth - 1 = Int32.ofNat (depth - 1) := by
  obtain ⟨n, rfl⟩ := Nat.exists_eq_add_of_lt hd
  simp [Int32.ofNat_add]

theorem int_eq_zero_iff (depth : Nat) : Int32.ofNat depth = 0 ↔ depth % 2 ^ 32 = 0 := by
  rw [← Int32.toBitVec_inj, Int32.toBitVec_ofNat', ← BitVec.toNat_inj]
  simp

theorem balanceLoop_eq (x y : UInt8) (rest : List UInt8) {depth : Nat} (j : Nat)
    (hd : 0 < depth) (hwraps : ¬ Wraps x y rest depth) :
    balanceLoop x y rest (Int32.ofNat depth) j =
      ((List.range (rest.length + 1)).find? fun k =>
        (rest.take k).count y = (rest.take k).countP (fun c => c = x ∧ c ≠ y) + depth).map
          (j + ·) := by
  induction rest generalizing depth j with
  | nil =>
      have hne : ¬ 0 = depth := by omega
      simp [balanceLoop, hne]
  | cons c rest ih =>
      have hne : ¬ 0 = depth := by omega
      rw [balanceLoop, List.length_cons, List.range_succ_eq_map, List.find?_cons]
      simp only [List.take_zero, List.count_nil, List.countP_nil, Nat.zero_add, hne,
        decide_false, List.find?_map, Option.map_map]
      have hshift : ((j + ·) ∘ Nat.succ) = (j + 1 + ·) := by
        funext k
        simp only [Function.comp_apply]
        omega
      by_cases hy : c = y
      · rw [if_pos hy, int_pred hd]
        simp only [int_eq_zero_iff]
        by_cases hone : depth = 1
        · simp [List.range_succ_eq_map, hy, hone]
        · have hdeep : ¬ (depth - 1) % 2 ^ 32 = 0 := by
            intro hzero
            refine hwraps ⟨0, Nat.succ_pos _, by simp [hy], fun k' hk' => ?_, ?_⟩
            · obtain rfl | rfl : k' = 0 ∨ k' = 1 := by omega
              · simpa using hne
              · simp [hy]
                omega
            · simpa [hy] using hzero
          have hnext : ¬ Wraps x y rest (depth - 1) := fun hw =>
            hwraps (hw.cons hd (by simp [hy]; omega))
          rw [if_neg hdeep, ih _ (by omega) hnext, hshift]
          congr 2
          funext k
          simp [hy]
          omega
      · rw [if_neg hy]
        by_cases hx : c = x
        · subst hx
          have hnext : ¬ Wraps c y rest (depth + 1) := fun hw =>
            hwraps (hw.cons hd (by simp [hy]))
          rw [if_pos rfl, show Int32.ofNat depth + 1 = Int32.ofNat (depth + 1) by
            simp [Int32.ofNat_add], ih _ (by omega) hnext, hshift]
          congr 2
          funext k
          simp [hy]
          omega
        · have hnext : ¬ Wraps x y rest depth := fun hw =>
            hwraps (hw.cons hd (by simp [hy, hx]))
          rw [if_neg hx, ih _ hd hnext, hshift]
          congr 2
          funext k
          simp [hy, hx]

theorem countedEnd_eq {x y : UInt8} {i : Nat} {j : Option Nat}
    (h : balancedInt s x y i = some j) : countedEnd s x y i = j ∧ balancedEnd s x y i = j := by
  unfold balancedInt at h
  split_ifs at h with hwraps
  have hend : balancedEnd s x y i = j := Option.some.inj h
  refine ⟨?_, hend⟩
  rw [← hend, countedEnd, balancedEnd]
  split_ifs with hx
  · exact balanceLoop_eq x y _ _ Nat.one_pos fun hw => hwraps ⟨hx, hw⟩
  · rfl

theorem matchCapture_finds (ends : Ends) (ms : MatchState) (i n : Nat) :
    (Piece.backref n).outcomes ct s ends (i, ms.captures) =
      match matchCapture s ms i n with
      | .error e => [.error (some e)]
      | .ok none => []
      | .ok (some j) => [.ok (j, ms.captures)] := by
  unfold matchCapture
  simp only [Piece.outcomes]
  cases hc : ms.captures[n]? with
  | none => rfl
  | some c =>
      obtain ⟨a, e⟩ := c
      cases e with
      | unfinished => rfl
      | position => rfl
      | closed b =>
          have hrepeats : Repeats s a b i ↔ i + (b - a) ≤ s.length ∧
            (s.drop i).take (b - a) = (s.drop a).take (b - a) := Iff.rfl
          by_cases hle : i + (b - a) ≤ s.length
          · by_cases htext : (s.drop i).take (b - a) = (s.drop a).take (b - a)
            · simp [hrepeats, hle, htext, Nat.not_lt.mpr hle]
            · simp [hrepeats, hle, htext, Nat.not_lt.mpr hle]
          · simp [hrepeats, hle, Nat.lt_of_not_le hle]

end Calls

/-! ## One pass through the body of `match` -/

section Steps

variable {d : Int} {rematch : Matcher} {levels : Nat} {ms : MatchState} {i : Nat}

def denote (ct : Ctype) (s : List UInt8) (levels : Nat) (p : List UInt8) (o : Outcome) :
    List (Except (Option Failure) Outcome) :=
  outcomes ct s (counted s) (parse p) levels o

/-- The calls that `match` makes at depth `d` find the first outcome wherever they
start, with so many levels left. -/
def Correct (ct : Ctype) (s : List UInt8) (d : Int) (levels : Nat) (rematch : Matcher) : Prop :=
  ∀ p, CallsFind d rematch (denote ct s levels p) p

/-- A pass ends in a result of a search for these outcomes, or goes on where the
outcomes are the same. -/
def PassFinds (ct : Ctype) (s : List UInt8) (levels : Nat) (ms : MatchState)
    (outs : List (Except (Option Failure) Outcome)) : Except Failure Jump → Prop
  | .error e => Finds found Raised outs ms (.error e)
  | .ok (.ret ok ms') => Finds found Raised outs ms (.ok (ok, ms'))
  | .ok (.init i p) => outs = denote ct s (levels + 1) p (i, ms.captures)

theorem passFinds_returning {outs : List (Except (Option Failure) Outcome)}
    {r : Except Failure (Bool × MatchState)} (h : Finds found Raised outs ms r) :
    PassFinds ct s levels ms outs (Jump.returning r) := by
  rcases r with e | ⟨ok, ms'⟩
  · exact h
  · exact h

theorem passFinds_failure : PassFinds ct s levels ms [] (.ok (.ret false ms)) := rfl

theorem passFinds_error {e : Failure} (outs : List (Except (Option Failure) Outcome)) :
    PassFinds ct s levels ms (.error (some e) :: outs) (.error e) :=
  ⟨e, rfl, rfl⟩

theorem passFinds_success :
    PassFinds ct s levels ms [.ok (i, ms.captures)]
      (.ok (.ret true { ms with matchEnd := i })) :=
  ⟨_, rfl, rfl⟩

def behind (ct : Ctype) (s : List UInt8) (levels : Nat) (r : Piece × List UInt8) :
    Outcome → List (Except (Option Failure) Outcome) :=
  denote ct s (if r.1.deepens then levels else levels + 1) r.2

theorem denote_cons (p0 : UInt8) (rest : List UInt8) (o : Outcome) :
    denote ct s (levels + 1) (p0 :: rest) o =
      andThen ((readPiece p0 rest).1.outcomes ct s (counted s) o)
        (behind ct s levels (readPiece p0 rest)) := by
  rw [denote, parse_cons, outcomes, if_neg (Nat.succ_ne_zero _)]
  rfl

theorem plus_outcomes_of_match {t : Single} {ends : Ends} {cs : Captures}
    (h : t.matchesAt ct s i = true) :
    (Piece.plus t).outcomes ct s ends (i, cs) = (Piece.star t).outcomes ct s ends (i + 1, cs) := by
  simp only [Piece.outcomes, run_eq_succ h, Nat.add_assoc, Nat.add_comm 1]

theorem matchItem_finds (h : Correct ct s d levels rematch) (hms : ms.matchdepth = d)
    (p0 : UInt8) (rest : List UInt8) :
    PassFinds ct s levels ms
      (andThen ((readItem p0 rest).1.outcomes ct s (counted s) (i, ms.captures))
        (behind ct s levels (readItem p0 rest)))
      (matchItem ct s rematch ms i p0 rest) := by
  unfold matchItem readItem
  cases hep : classEnd p0 rest with
  | error e => exact passFinds_error _
  | ok ep =>
      have hreads : Reads ct s (p0 :: rest) (readSingle p0 rest) := reads_readSingle hep
      generalize readSingle p0 rest = t at hreads
      have hread := hreads i
      simp only [bind, Except.bind]
      split_ifs with hstar hplus hminus hopt
      · exact passFinds_returning (maxExpand_finds (h ep.tail) hms hreads)
      · by_cases ht : t.unclosed = true
        · simp only [ht, if_true] at hread
          simp only [hread, Piece.outcomes, Single.orUnclosed, ht, if_true]
          exact passFinds_error _
        · simp only [ht, Bool.false_eq_true, if_false] at hread
          rw [hread]
          cases hm : t.matchesAt ct s i with
          | false =>
              simp only [Piece.outcomes, Single.orUnclosed, ht, Bool.false_eq_true, if_false,
                run_eq_zero hm]
              exact passFinds_failure
          | true =>
              rw [plus_outcomes_of_match hm]
              exact passFinds_returning (maxExpand_finds (h ep.tail) hms hreads)
      · exact passFinds_returning (minExpand_finds (h ep.tail) hms hreads)
      · by_cases ht : t.unclosed = true
        · simp only [ht, if_true] at hread
          simp only [hread, Piece.outcomes, Single.orUnclosed, ht, if_true]
          exact passFinds_error _
        · simp only [ht, Bool.false_eq_true, if_false] at hread
          rw [hread]
          have hskip := h ep.tail ms i hms
          cases hm : t.matchesAt ct s i with
          | false =>
              simp only [Piece.outcomes, Single.orUnclosed, ht, Bool.false_eq_true, if_false, hm]
              simpa [behind, Piece.deepens] using passFinds_returning hskip
          | true =>
              have htake := h ep.tail ms (i + 1) hms
              have hboth := htake.orElse (k := fun ms => rematch ms i ep.tail) hskip
              simp only [Piece.outcomes, Single.orUnclosed, ht, Bool.false_eq_true, if_false, hm,
                if_true]
              convert passFinds_returning hboth using 1
              · simp [behind, Piece.deepens]
              · rcases rematch ms (i + 1) ep.tail with e | ⟨_ | _, ms'⟩
                all_goals rfl
      · by_cases ht : t.unclosed = true
        · simp only [ht, if_true] at hread
          simp only [hread, Piece.outcomes, Single.orUnclosed, ht, if_true]
          exact passFinds_error _
        · simp only [ht, Bool.false_eq_true, if_false] at hread
          rw [hread]
          cases hm : t.matchesAt ct s i with
          | false =>
              simp only [Piece.outcomes, Single.orUnclosed, ht, Bool.false_eq_true, if_false, hm]
              exact passFinds_failure
          | true =>
              simp only [Piece.outcomes, Single.orUnclosed, ht, Bool.false_eq_true, if_false, hm,
                if_true]
              simp [PassFinds, behind, Piece.deepens, pure, Except.pure]

theorem previousChar_eq (s : List UInt8) (i : Nat) :
    previousChar s i =
      if s.length < i then .error .readPastEnd else .ok (charBefore s i) := by
  unfold previousChar charBefore
  by_cases hi : i = 0
  · rw [if_pos hi, if_pos hi, if_neg (by omega)]
  · rw [if_neg hi, if_neg hi]
    cases hc : s[i - 1]? with
    | none =>
        have := List.getElem?_eq_none_iff.mp hc
        rw [if_pos (by omega)]
    | some c =>
        have := (List.getElem?_eq_some_iff.mp hc).1
        rw [if_neg (by omega)]
        rfl

theorem matchFrontier_finds (ct : Ctype) (ms : MatchState) (rest : List UInt8) :
    PassFinds ct s levels ms
      (andThen ((readFrontier rest).1.outcomes ct s (counted s) (i, ms.captures))
        (behind ct s levels (readFrontier rest)))
      (matchFrontier ct s ms i rest) := by
  unfold matchFrontier readFrontier
  by_cases hset : rest.head? ≠ some '['.toUInt8
  · rw [if_pos hset, if_pos hset]
    exact passFinds_error _
  · rw [if_neg hset, if_neg hset]
    simp only [previousChar_eq, matchBracketClass_eq, Piece.outcomes]
    have hclosed : (readSet rest.tail).1.closed = (readSet rest.tail).2.isSome := rfl
    by_cases hpast : s.length < i
    · simp only [hpast, if_true]
      exact passFinds_error _
    · simp only [hpast, if_false, hclosed]
      cases (readSet rest.tail).2 with
      | none =>
          by_cases hmembers : (readSet rest.tail).1.members = []
          · simp only [hmembers, if_true]
            exact passFinds_failure
          · simp only [hmembers, if_false]
            exact passFinds_error _
      | some ep =>
          simp only [Option.isSome_some, if_true, charAt, Option.getD_some, bind, Except.bind]
          by_cases hprev : (readSet rest.tail).1.holds ct (charBefore s i) = true
          · simp only [hprev, Bool.not_true, Bool.false_and, Bool.false_eq_true, if_false,
              Bool.true_or, if_true]
            exact passFinds_failure
          · by_cases hcur : (readSet rest.tail).1.holds ct (s[i]?.getD 0) = true
            · simp [hprev, hcur, PassFinds, behind, Piece.deepens, pure, Except.pure]
            · simp only [hprev, hcur, Bool.not_false, Bool.true_and, Bool.false_eq_true, if_false,
                Bool.false_or, if_true]
              exact passFinds_failure

theorem matchEscape_finds (h : Correct ct s d levels rematch) (hms : ms.matchdepth = d)
    (rest : List UInt8) :
    PassFinds ct s levels ms
      (andThen ((readEscape rest).1.outcomes ct s (counted s) (i, ms.captures))
        (behind ct s levels (readEscape rest)))
      (matchEscape ct s rematch ms i rest) := by
  cases rest with
  | nil => exact passFinds_error _
  | cons spec rest =>
      simp only [matchEscape, readEscape]
      by_cases hb : spec = 'b'.toUInt8
      · rw [if_pos hb, if_pos hb]
        rcases rest with _ | ⟨x, _ | ⟨y, rest⟩⟩
        · exact passFinds_error _
        · exact passFinds_error _
        · exact passFinds_returning (matchBalance_finds (h rest) hms)
      rw [if_neg hb, if_neg hb]
      by_cases hf : spec = 'f'.toUInt8
      · rw [if_pos hf, if_pos hf]
        exact matchFrontier_finds ct ms rest
      rw [if_neg hf, if_neg hf]
      by_cases hdigit : '1'.toUInt8 ≤ spec ∧ spec ≤ '9'.toUInt8
      · rw [if_pos hdigit, if_pos hdigit, matchCapture_finds]
        cases matchCapture s ms i (spec - '1'.toUInt8).toNat with
        | error e => exact passFinds_error _
        | ok r =>
            cases r with
            | none => exact passFinds_failure
            | some j => simp [PassFinds, behind, Piece.deepens, bind, Except.bind, pure,
                Except.pure]
      rw [if_neg hdigit, if_neg hdigit]
      by_cases hzero : spec = '0'.toUInt8
      · rw [if_pos hzero, if_pos hzero]
        exact passFinds_error _
      · rw [if_neg hzero, if_neg hzero]
        exact matchItem_finds h hms _ _

theorem matchStep_finds (h : Correct ct s d levels rematch) (hms : ms.matchdepth = d)
    (p : List UInt8) :
    PassFinds ct s levels ms (denote ct s (levels + 1) p (i, ms.captures))
      (matchStep ct s rematch ms i p) := by
  cases p with
  | nil =>
      rw [denote, parse, outcomes, if_neg (Nat.succ_ne_zero _)]
      exact passFinds_success
  | cons p0 rest =>
      rw [denote_cons]
      simp only [matchStep, readPiece]
      by_cases hopen : p0 = '('.toUInt8
      · rw [if_pos hopen, if_pos hopen]
        by_cases hpos : rest.head? = some ')'.toUInt8
        · rw [if_pos hpos, if_pos hpos]
          have hcall := startCapture_finds (i := i) (h rest.tail) hms true
          simpa [Piece.outcomes, behind, Piece.deepens] using passFinds_returning hcall
        · rw [if_neg hpos, if_neg hpos]
          have hcall := startCapture_finds (i := i) (h rest) hms false
          simpa [Piece.outcomes, behind, Piece.deepens] using passFinds_returning hcall
      rw [if_neg hopen, if_neg hopen]
      by_cases hclose : p0 = ')'.toUInt8
      · rw [if_pos hclose, if_pos hclose]
        exact passFinds_returning (endCapture_finds (h rest) hms)
      rw [if_neg hclose, if_neg hclose]
      by_cases hend : p0 = '$'.toUInt8 ∧ rest = []
      · rw [if_pos hend, if_pos hend]
        simp only [Piece.outcomes]
        by_cases hlen : s.length ≤ i
        · rw [if_pos hlen, if_pos hlen]
          have hrest : behind ct s levels (.atEnd, []) (i, ms.captures) =
              [.ok (i, ms.captures)] := by
            simp [behind, Piece.deepens, denote, parse, outcomes]
          simp only [andThen_ok, andThen_nil, hrest]
          exact passFinds_success
        · rw [if_neg hlen, if_neg hlen]
          exact passFinds_failure
      rw [if_neg hend, if_neg hend]
      by_cases hesc : p0 = '%'.toUInt8
      · rw [if_pos hesc, if_pos hesc]
        exact matchEscape_finds h hms rest
      · rw [if_neg hesc, if_neg hesc]
        exact matchItem_finds h hms p0 rest

theorem matchLoop_finds (h : Correct ct s d levels rematch) (hms : ms.matchdepth = d)
    (p : List UInt8) :
    Finds found Raised (denote ct s (levels + 1) p (i, ms.captures)) ms
      (matchLoop ct s rematch ms i p) := by
  induction hn : p.length using Nat.strongRecOn generalizing i p with
  | ind n ih =>
      have hpass := matchStep_finds (i := i) h hms p
      rw [matchLoop]
      split
      · rename_i e hstep
        rw [hstep] at hpass
        exact hpass
      · rename_i ok ms' hstep
        rw [hstep] at hpass
        exact hpass
      · rename_i i' p' hstep
        rw [hstep] at hpass
        have hlt := matchStep_length ct s rematch hstep
        rw [show _ = _ from hpass]
        exact ih p'.length (by omega) p' rfl

/-- The levels that are left: the counter is not looked at once it is negative. -/
def levelsLeft (budget : Nat) (d : Int) : Nat := if d < 0 then budget else min budget d.toNat

theorem matchAt_correct (ct : Ctype) (s : List UInt8) (budget : Nat) (d : Int) :
    Correct ct s d (levelsLeft budget d) (matchAt ct s budget) := by
  induction budget generalizing d with
  | zero =>
      intro p ms i hms
      have hzero : levelsLeft 0 d = 0 := by
        unfold levelsLeft
        split <;> simp
      rw [hzero, denote]
      cases parse p with
      | nil => exact finds_raised _ _
      | cons piece pieces => exact finds_raised _ _
  | succ budget ih =>
      intro p ms i hms
      unfold matchAt matchDepthGuard
      by_cases hd : ms.matchdepth = 0
      · have hzero : levelsLeft (budget + 1) d = 0 := by
          simp [levelsLeft, ← hms, hd]
        rw [if_pos hd, hzero, denote]
        cases parse p with
        | nil => exact finds_raised _ _
        | cons piece pieces => exact finds_raised _ _
      · have hsucc : levelsLeft (budget + 1) d = levelsLeft budget (d - 1) + 1 := by
          simp only [levelsLeft]
          split_ifs <;> omega
        rw [if_neg hd, hsucc]
        have hdepth : ({ ms with matchdepth := ms.matchdepth - 1 } : MatchState).matchdepth =
            d - 1 := by rw [hms]
        have hbody := matchLoop_finds (i := i) (ih (d - 1)) hdepth p
        -- the guard gives back what it took from the counter
        apply hbody.bracketed fun ms' => { ms' with matchdepth := ms'.matchdepth + 1 }
        · simp
        · exact fun _ => rfl

end Steps

/-! ## Outcomes in the subject -/

def StartFrom (lo : Nat) (cs : Captures) : Prop := ∀ c ∈ cs, lo ≤ c.1

@[simp]
theorem startFrom_cons {lo : Nat} {c : Nat × CapEnd} {cs : Captures} :
    StartFrom lo (c :: cs) ↔ lo ≤ c.1 ∧ StartFrom lo cs := by
  simp [StartFrom]

theorem StartFrom.snoc {lo i : Nat} {cs : Captures} {e : CapEnd} (h : StartFrom lo cs)
    (hi : lo ≤ i) : StartFrom lo (cs ++ [(i, e)]) := by
  intro c hc
  simp only [List.mem_append, List.mem_singleton] at hc
  cases hc with
  | inl hc => exact h c hc
  | inr hc => simpa [hc] using hi

theorem StartFrom.closeLast {lo i : Nat} {cs cs' : Captures} (h : StartFrom lo cs)
    (hclose : closeLast i cs = some cs') : StartFrom lo cs' := by
  induction cs generalizing cs' with
  | nil => simp [Pattern.closeLast] at hclose
  | cons c cs ih =>
      rw [startFrom_cons] at h
      simp only [Pattern.closeLast] at hclose
      split at hclose
      · rename_i cs₁ hrest
        simp only [Option.some.injEq] at hclose
        subst hclose
        exact startFrom_cons.mpr ⟨h.1, ih h.2 hrest⟩
      · split at hclose
        · simp only [Option.some.injEq] at hclose
          subst hclose
          exact startFrom_cons.mpr h
        · simp at hclose

theorem matchesAt_lt {t : Single} {i : Nat} (h : t.matchesAt ct s i = true) :
    i < s.length := by
  simp only [Single.matchesAt] at h
  split at h
  · simp at h
  · rename_i c hc
    exact (List.getElem?_eq_some_iff.mp hc).1

theorem Piece.outcomes_inside {ends : Ends} (hends : EndsIn s ends) {piece : Piece} {lo : Nat}
    {o o' : Outcome} (ho : .ok o' ∈ piece.outcomes ct s ends o) (hlo : lo ≤ o.1)
    (hin : o.1 ≤ s.length)
    (h : StartFrom lo o.2) : o'.1 ≤ s.length ∧ StartFrom lo o'.2 := by
  obtain ⟨i, cs⟩ := o
  cases piece with
  | opening =>
      obtain rfl := Except.ok.inj (List.mem_singleton.mp ho)
      exact ⟨hin, h.snoc hlo⟩
  | position =>
      obtain rfl := Except.ok.inj (List.mem_singleton.mp ho)
      exact ⟨hin, h.snoc hlo⟩
  | closing =>
      simp only [outcomes] at ho
      split at ho
      · rename_i cs' hcs
        obtain rfl := Except.ok.inj (List.mem_singleton.mp ho)
        exact ⟨hin, h.closeLast hcs⟩
      · simp at ho
  | atEnd =>
      simp only [outcomes, List.mem_ite_nil_right, List.mem_singleton, Except.ok.injEq] at ho
      simpa [ho.2] using ⟨hin, h⟩
  | balance x y =>
      simp only [outcomes] at ho
      split at ho
      · rename_i j hj
        obtain ⟨j', hj', hto⟩ := List.mem_map.mp ho
        obtain rfl := Option.mem_toList.mp hj'
        obtain rfl := Except.ok.inj hto
        exact ⟨(hends x y i j' hj).2, h⟩
      · simp at ho
  | frontier set =>
      simp only [outcomes] at ho
      split_ifs at ho
      all_goals simp only [List.mem_singleton, List.not_mem_nil, reduceCtorEq] at ho
      obtain rfl := Except.ok.inj ho
      exact ⟨hin, h⟩
  | backref n =>
      simp only [outcomes] at ho
      split at ho
      · simp only [List.mem_ite_nil_right, List.mem_singleton, Except.ok.injEq] at ho
        simpa [ho.2] using ⟨ho.1.1, h⟩
      · simp at ho
  | one t =>
      have hto := Single.mem_orUnclosed ho
      simp only [List.mem_ite_nil_right, List.mem_singleton, Except.ok.injEq] at hto
      simpa [hto.2] using ⟨matchesAt_lt hto.1, h⟩
  | star t =>
      have hrun := run_le ct s t i
      have hto := Single.mem_orUnclosed ho
      simp only [List.mem_map, List.mem_reverse, List.mem_range, Except.ok.injEq] at hto
      obtain ⟨n, hn, rfl⟩ := hto
      exact ⟨by simp only at hin ⊢; omega, h⟩
  | plus t =>
      have hrun := run_le ct s t i
      have hto := Single.mem_orUnclosed ho
      simp only [List.mem_map, List.mem_reverse, List.mem_range, Except.ok.injEq] at hto
      obtain ⟨n, hn, rfl⟩ := hto
      exact ⟨by simp only at hin ⊢; omega, h⟩
  | minus t =>
      have hrun := run_le ct s t i
      simp only [outcomes] at ho
      split at ho
      · obtain rfl : o' = (i, cs) := by simpa using ho
        exact ⟨hin, h⟩
      · simp only [List.mem_map, List.mem_range, Except.ok.injEq] at ho
        obtain ⟨n, hn, rfl⟩ := ho
        exact ⟨by simp only at hin ⊢; omega, h⟩
  | opt t =>
      have hto := Single.mem_orUnclosed ho
      split at hto
      · rename_i ht
        simp only [List.mem_cons, List.not_mem_nil, or_false, Except.ok.injEq] at hto
        cases hto with
        | inl hto => simpa [hto] using ⟨matchesAt_lt ht, h⟩
        | inr hto => simpa [hto] using ⟨hin, h⟩
      · simp only [List.mem_singleton, Except.ok.injEq] at hto
        simpa [hto] using ⟨hin, h⟩
  | malformed e => simp [outcomes] at ho

theorem outcomes_inside {ends : Ends} (hends : EndsIn s ends) {pieces : List Piece}
    {levels lo : Nat} {o o' : Outcome} (ho : .ok o' ∈ outcomes ct s ends pieces levels o)
    (hlo : lo ≤ o.1) (hin : o.1 ≤ s.length) (h : StartFrom lo o.2) (hord : Ordered o.1 o.2) :
    o'.1 ≤ s.length ∧ StartFrom lo o'.2 := by
  induction pieces generalizing o levels with
  | nil =>
      obtain rfl := mem_outcomes_nil ho
      exact ⟨hin, h⟩
  | cons piece pieces ih =>
      obtain ⟨o₁, levels', ho₁, ho'⟩ := mem_outcomes_cons ho
      have hfirst := Piece.outcomes_inside hends ho₁ hlo hin h
      have hforward := Piece.outcomes_ordered hends ho₁ hord
      exact ih ho' (hlo.trans hforward.1) hfirst.1 hfirst.2 hforward.2

/-- No piece reads behind the subject, and none comes upon an end that is not known. -/
theorem Piece.outcomes_error {ends : Ends} (hknown : ∀ x y i, ends x y i ≠ none) {piece : Piece}
    {o : Outcome} {e : Option Failure} (hpiece : piece ≠ .malformed .readPastEnd)
    (he : .error e ∈ piece.outcomes ct s ends o) (hin : o.1 ≤ s.length) :
    e ≠ none ∧ e ≠ some .readPastEnd := by
  obtain ⟨i, cs⟩ := o
  have hset {t : Single} {outs : List (Except (Option Failure) Outcome)}
      (houts : .error e ∉ outs) (h : .error e ∈ t.orUnclosed outs) :
      e ≠ none ∧ e ≠ some .readPastEnd := by
    unfold Single.orUnclosed at h
    split at h
    · obtain rfl := Except.error.inj (List.mem_singleton.mp h)
      simp
    · exact absurd h houts
  cases piece with
  | opening => simp [outcomes] at he
  | position => simp [outcomes] at he
  | closing =>
      simp only [outcomes] at he
      split at he
      · simp at he
      · obtain rfl := Except.error.inj (List.mem_singleton.mp he)
        simp
  | atEnd => simp [outcomes] at he
  | balance x y =>
      simp only [outcomes] at he
      split at he
      · simp at he
      · rename_i hnone
        exact absurd hnone (hknown x y i)
  | frontier set =>
      simp only [outcomes, if_neg (Nat.not_lt.mpr hin)] at he
      split_ifs at he
      all_goals simp only [List.mem_singleton, List.not_mem_nil, reduceCtorEq] at he
      obtain rfl := Except.error.inj he
      simp
  | backref n =>
      simp only [outcomes] at he
      split at he
      · split_ifs at he <;> simp at he
      · obtain rfl := Except.error.inj (List.mem_singleton.mp he)
        simp
  | one t => exact hset (by split_ifs <;> simp) he
  | star t => exact hset (by simp) he
  | plus t => exact hset (by simp) he
  | minus t =>
      simp only [outcomes] at he
      split at he
      · obtain rfl : e = some .missingBracket := by simpa using he
        simp
      · simp at he
  | opt t => exact hset (by split_ifs <;> simp) he
  | malformed e' =>
      obtain rfl := Except.error.inj (List.mem_singleton.mp he)
      refine ⟨by simp, fun hpast => hpiece ?_⟩
      rw [Option.some.inj hpast]

theorem outcomes_error {ends : Ends} (hends : EndsIn s ends)
    (hknown : ∀ x y i, ends x y i ≠ none) {pieces : List Piece} {levels : Nat} {o : Outcome}
    {e : Option Failure} (hpieces : .malformed .readPastEnd ∉ pieces)
    (he : .error e ∈ outcomes ct s ends pieces levels o) (hin : o.1 ≤ s.length)
    (hord : Ordered o.1 o.2) : e ≠ none ∧ e ≠ some .readPastEnd := by
  induction pieces generalizing o levels with
  | nil =>
      rw [outcomes] at he
      split at he
      · obtain rfl := Except.error.inj (List.mem_singleton.mp he)
        simp
      · simp at he
  | cons piece pieces ih =>
      rw [outcomes] at he
      split at he
      · obtain rfl := Except.error.inj (List.mem_singleton.mp he)
        simp
      · obtain he | ⟨o₁, ho₁, he⟩ := mem_andThen_error he
        · exact Piece.outcomes_error hknown
            (fun h => hpieces (h ▸ List.mem_cons_self)) he hin
        · have hfirst := Piece.outcomes_inside hends ho₁ (Nat.zero_le _) hin
            (fun _ _ => Nat.zero_le _)
          have hforward := Piece.outcomes_ordered hends ho₁ hord
          exact ih (fun h => hpieces (List.mem_cons_of_mem _ h)) he hfirst.1 hforward.2

end Luatier.Pattern
