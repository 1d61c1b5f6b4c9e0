import Luatier.Stdlib.PatternSpec

/-!
# Two readings of a set

`class_end` looks for the `]` that closes a set and skips escapes on its way;
`match_bracket_class` reads the members one by one and stops where it meets a `]`.
Here the bytes between the brackets are a text of their own, and the two readings
agree exactly when its members leave no `]` in the way.
-/

namespace Luatier.Pattern

/-! ## The text between the brackets -/

def spellMember (lo : UInt8) : List UInt8 → Member × List UInt8
  | [] => (.range lo lo, [])
  | x :: rest =>
      if lo = '%'.toUInt8 then (.clas x, rest)
      else
        match rest with
        | [] => (.range lo lo, [x])
        | hi :: rest' =>
            if x = '-'.toUInt8 then (.range lo hi, rest') else (.range lo lo, x :: rest)

theorem spellMember_length (lo : UInt8) (rest : List UInt8) :
    (spellMember lo rest).2.length ≤ rest.length := by
  unfold spellMember
  repeat' split
  all_goals simp <;> omega

def spelled : List UInt8 → List Member
  | [] => []
  | lo :: rest => (spellMember lo rest).1 :: spelled (spellMember lo rest).2
  termination_by b => b.length
  decreasing_by exact Nat.lt_succ_of_le (spellMember_length lo rest)

def spelledSet (b : List UInt8) : CharSet :=
  let negate := b.head? = some '^'.toUInt8
  ⟨negate, spelled (if negate then b.tail else b), true⟩

/-- The member at the start of a text is no lone `%` and no range up to `]`. -/
def MemberWhole (lo : UInt8) : List UInt8 → Prop
  | [] => lo ≠ '%'.toUInt8
  | x :: rest => lo = '%'.toUInt8 ∨ x ≠ '-'.toUInt8 ∨ rest.head? ≠ some ']'.toUInt8

def MembersWhole : List UInt8 → Prop
  | [] => True
  | lo :: rest =>
      MemberWhole lo rest ∧ (spellMember lo rest).2.head? ≠ some ']'.toUInt8 ∧
        MembersWhole (spellMember lo rest).2
  termination_by b => b.length
  decreasing_by exact Nat.lt_succ_of_le (spellMember_length lo rest)

/-- The text of a set, behind its `^` if it has one, spells whole members. -/
def SetWhole (b : List UInt8) : Prop :=
  MembersWhole (if b.head? = some '^'.toUInt8 then b.tail else b)

/-! ## Reading up to the bracket -/

variable {ct : Ctype} {lo : UInt8} {rest b ep p : List UInt8}

theorem readMember_append (h : MemberWhole lo rest) :
    readMember lo (rest ++ ']'.toUInt8 :: ep) =
      ((spellMember lo rest).1, (spellMember lo rest).2 ++ ']'.toUInt8 :: ep) := by
  have hclose : ']'.toUInt8 ≠ '-'.toUInt8 := by decide
  cases rest with
  | nil =>
      have hlo : lo ≠ '%'.toUInt8 := h
      cases ep <;> simp [readMember, spellMember, hlo, hclose]
  | cons x rest =>
      simp only [List.cons_append, readMember, spellMember]
      by_cases hlo : lo = '%'.toUInt8
      · simp [hlo]
      · rw [if_neg hlo, if_neg hlo]
        cases rest with
        | nil => simp
        | cons hi rest' =>
            have hhi : x = '-'.toUInt8 → hi ≠ ']'.toUInt8 := by
              simpa [MemberWhole, hlo, or_iff_not_imp_left] using h
            by_cases hx : x = '-'.toUInt8
            · simp [hx, hhi hx]
            · simp [hx]

theorem readMembers_lt (h : (readMembers p).2 = some ep) : ep.length < p.length := by
  cases p with
  | nil => simp [readMembers] at h
  | cons lo rest =>
      have hlen := readMember_length lo rest
      rw [readMembers_cons] at h
      cases hm : (readMember lo rest).2 with
      | nil => simp [hm] at h
      | cons x rest' =>
          rw [hm, List.length_cons] at hlen
          simp only [hm] at h
          rw [List.length_cons]
          split_ifs at h with hx
          · cases h
            omega
          · have := readMembers_length h
            simp only [List.length_cons] at this
            omega

theorem readMembers_stops_early (h : (readMember lo rest).2 = ']'.toUInt8 :: p)
    (hlen : ep.length < p.length) : (readMembers (lo :: rest)).2 ≠ some ep := by
  rw [readMembers_cons]
  simp only [h, if_true, ne_eq, Option.some.injEq]
  rintro rfl
  exact Nat.lt_irrefl _ hlen

theorem readMembers_not_whole (h : ¬ MemberWhole lo rest) :
    (readMembers (lo :: rest ++ ']'.toUInt8 :: ep)).2 ≠ some ep := by
  rw [List.cons_append]
  cases rest with
  | nil =>
      have hlo : lo = '%'.toUInt8 := by simpa [MemberWhole] using h
      rw [readMembers_cons]
      simp only [List.nil_append, readMember, hlo, if_true]
      cases ep with
      | nil => simp
      | cons x ep =>
          simp only
          split_ifs
          · simp
          · intro hread
            exact absurd (readMembers_lt hread) (Nat.lt_irrefl _)
  | cons x rest =>
      obtain ⟨hlo, rfl, hhead⟩ : lo ≠ '%'.toUInt8 ∧ x = '-'.toUInt8 ∧
          rest.head? = some ']'.toUInt8 := by
        simpa [MemberWhole] using h
      obtain ⟨rest, rfl⟩ : ∃ t, rest = ']'.toUInt8 :: t := by
        cases rest with
        | nil => simp at hhead
        | cons y t => exact ⟨t, by simpa using hhead⟩
      have hdash : '-'.toUInt8 ≠ ']'.toUInt8 := by decide
      have hlone : '-'.toUInt8 ≠ '%'.toUInt8 := by decide
      have hfirst : (readMember lo ('-'.toUInt8 :: ']'.toUInt8 :: rest ++
          ']'.toUInt8 :: ep)).2 =
          '-'.toUInt8 :: (']'.toUInt8 :: rest ++ ']'.toUInt8 :: ep) := by
        simp [readMember, hlo]
      rw [readMembers_cons, hfirst]
      simp only [hdash, if_false]
      apply readMembers_stops_early (p := rest ++ ']'.toUInt8 :: ep)
      · cases rest <;> simp [readMember, hlone, hdash.symm]
      · simp
        omega

theorem readMembers_append_iff (ep : List UInt8) (hb : b ≠ []) :
    (readMembers (b ++ ']'.toUInt8 :: ep)).2 = some ep ↔ MembersWhole b := by
  induction hn : b.length using Nat.strongRecOn generalizing b with
  | ind n ih =>
      cases b with
      | nil => contradiction
      | cons lo rest =>
          have hlen := spellMember_length lo rest
          rw [MembersWhole]
          by_cases hwhole : MemberWhole lo rest
          · rw [List.cons_append, readMembers_cons, readMember_append hwhole]
            cases hmore : (spellMember lo rest).2 with
            | nil => simp [hwhole, MembersWhole]
            | cons y more =>
                rw [hmore] at hlen
                simp only [List.cons_append]
                by_cases hy : y = ']'.toUInt8
                · have : (more ++ ']'.toUInt8 :: ep) ≠ ep := by
                    intro heq
                    have := congrArg List.length heq
                    simp at this
                    omega
                  simp [hy, this]
                · have hrest := ih (y :: more).length (by simp at hn hlen ⊢; omega)
                    (List.cons_ne_nil y more) rfl
                  simpa [hy, hwhole] using hrest
          · constructor
            · intro h
              exact absurd h (readMembers_not_whole hwhole)
            · intro h
              exact absurd h.1 hwhole

theorem readMembers_append (ep : List UInt8) (h : MembersWhole b) (hb : b ≠ []) :
    (readMembers (b ++ ']'.toUInt8 :: ep)).1 = spelled b := by
  induction hn : b.length using Nat.strongRecOn generalizing b with
  | ind n ih =>
      cases b with
      | nil => contradiction
      | cons lo rest =>
          have hlen := spellMember_length lo rest
          rw [MembersWhole] at h
          obtain ⟨hwhole, hhead, hmore⟩ := h
          rw [List.cons_append, readMembers_cons, readMember_append hwhole, spelled]
          cases hrest : (spellMember lo rest).2 with
          | nil => simp [spelled]
          | cons y more =>
              rw [hrest] at hmore hhead hlen
              have hy : y ≠ ']'.toUInt8 := by simpa using hhead
              have := ih (y :: more).length (by simp at hn hlen ⊢; omega) hmore
                (List.cons_ne_nil y more) rfl
              simpa [hy] using this

/-! ## Where `class_end` finds the bracket -/

def setText (p ep : List UInt8) : List UInt8 := p.take (p.length - (ep.length + 1))

theorem classEnd_token {x : UInt8} {t : List UInt8}
    (h : (if x = '%'.toUInt8 then rest.tail else rest) = t) (ht : t ≠ []) :
    ∃ b, b ≠ [] ∧ x :: rest = b ++ t := by
  by_cases hx : x = '%'.toUInt8
  · rw [if_pos hx] at h
    cases rest with
    | nil => simp [← h] at ht
    | cons y rest => exact ⟨[x, y], by simp, by simpa using h⟩
  · rw [if_neg hx] at h
    exact ⟨[x], by simp, by simp [h]⟩

theorem classEndLoop_split (h : classEndLoop p = .ok ep) :
    ∃ b, b ≠ [] ∧ p = b ++ ']'.toUInt8 :: ep := by
  fun_induction classEndLoop p with
  | case1 => cases h
  | case2 => cases h
  | case3 x rest rest' hrest =>
      cases h
      exact classEnd_token (by simpa using hrest) (List.cons_ne_nil _ _)
  | case4 x rest y rest' hrest hy ih =>
      obtain ⟨b, -, hb⟩ := ih h
      obtain ⟨c, hc, hsplit⟩ := classEnd_token (by simpa using hrest) (List.cons_ne_nil y rest')
      exact ⟨c ++ b, by simp [hc], by rw [hsplit, hb, List.append_assoc]⟩

theorem classEnd_split (h : classEnd '['.toUInt8 p = .ok ep) :
    p = setText p ep ++ ']'.toUInt8 :: ep ∧
      ((setText p ep).head? = some '^'.toUInt8 ↔ p.head? = some '^'.toUInt8) ∧
      ((setText p ep).head? = some '^'.toUInt8 → (setText p ep).tail ≠ []) ∧
      setText p ep ≠ [] := by
  have hset : '['.toUInt8 ≠ '%'.toUInt8 := by decide
  simp only [classEnd, hset, if_false, if_true] at h
  obtain ⟨b, hb, hsplit⟩ := classEndLoop_split h
  have htext : ∀ c : List UInt8, p = c ++ ']'.toUInt8 :: ep → setText p ep = c := by
    rintro c rfl
    simp [setText]
  by_cases hneg : p.head? = some '^'.toUInt8
  · rw [if_pos hneg] at hsplit
    obtain ⟨t, rfl⟩ : ∃ t, p = '^'.toUInt8 :: t := by
      cases p with
      | nil => simp at hneg
      | cons x t => exact ⟨t, by simpa using hneg⟩
    rw [htext ('^'.toUInt8 :: b) (by simpa using hsplit)]
    simp only [List.tail_cons] at hsplit
    simp [hsplit, hb]
  · rw [if_neg hneg] at hsplit
    rw [htext b hsplit]
    cases b with
    | nil => contradiction
    | cons x b =>
        subst hsplit
        simp_all

/-- The two readings of a set agree: what one takes for the text between the
brackets spells the members that the other tests a character against, in a set of
its own and behind `%f`. -/
structure ReadAlike (ct : Ctype) (p ep : List UInt8) : Prop where
  characters : ∀ c,
    matchBracketClass ct c p = .ok ((spelledSet (setText p ep)).holds ct c, some ep)
  ordinary : ∀ s si, singleMatch ct s si ('['.toUInt8 :: p) =
    .ok ((Single.set (spelledSet (setText p ep))).matchesAt ct s si)
  frontier : ∀ s ms si, si ≤ s.length → matchFrontier ct s ms si ('['.toUInt8 :: p) =
    .ok (if !(spelledSet (setText p ep)).holds ct (charBefore s si) &&
        (spelledSet (setText p ep)).holds ct (charAt s si) then .init si ep
      else .ret false ms)

theorem readAlike_of_characters
    (h : ∀ c, matchBracketClass ct c p = .ok ((spelledSet (setText p ep)).holds ct c, some ep)) :
    ReadAlike ct p ep := by
  refine ⟨h, fun s si => ?_, fun s ms si hsi => ?_⟩
  · have hany : '['.toUInt8 ≠ '.'.toUInt8 := by decide
    have hesc : '['.toUInt8 ≠ '%'.toUInt8 := by decide
    simp only [singleMatch, hany, hesc, if_false, if_true, Single.matchesAt, Single.holds]
    cases s[si]? with
    | none => simp [h, bind, Except.bind, pure, Except.pure]
    | some c => simp [h, bind, Except.bind, pure, Except.pure]
  · have hprev : previousChar s si = .ok (charBefore s si) := by
      rw [previousChar_eq, if_neg (Nat.not_lt.mpr hsi)]
    simp only [matchFrontier, List.head?_cons, ne_eq, not_true_eq_false, if_false,
      List.tail_cons, hprev, h, bind, Except.bind, pure, Except.pure, charAt, Option.getD_some]
    by_cases hbefore : (spelledSet (setText p ep)).holds ct (charBefore s si) = true
    · simp [hbefore]
    · by_cases hhere : (spelledSet (setText p ep)).holds ct (s[si]?.getD 0) = true <;>
        simp [hbefore, hhere]

/-- Wherever `class_end` finds the end of a set, the set is interpreted as its text
spells it exactly when the text spells whole members. -/
theorem sets_read_alike_iff (ct : Ctype) {p ep : List UInt8}
    (h : classEnd '['.toUInt8 p = .ok ep) :
    p = setText p ep ++ ']'.toUInt8 :: ep ∧
      (ReadAlike ct p ep ↔ SetWhole (setText p ep)) := by
  obtain ⟨hsplit, hneg, htail, hne⟩ := classEnd_split h
  refine ⟨hsplit, ?_⟩
  obtain ⟨b, hb⟩ : ∃ b, setText p ep = b := ⟨_, rfl⟩
  rw [hb] at hsplit hneg htail hne ⊢
  -- the text behind the `^`, in the pattern and by itself
  have hbehind : (if p.head? = some '^'.toUInt8 then p.tail else p) =
      (if b.head? = some '^'.toUInt8 then b.tail else b) ++ ']'.toUInt8 :: ep := by
    simp only [← hneg]
    split
    · rw [hsplit, List.tail_append_of_ne_nil hne]
    · exact hsplit
  have hmore : (if b.head? = some '^'.toUInt8 then b.tail else b) ≠ [] := by
    split
    · exact htail ‹_›
    · exact hne
  have hread : (readSet p).2 = some ep ↔ MembersWhole
      (if b.head? = some '^'.toUInt8 then b.tail else b) := by
    simp only [readSet, hbehind]
    exact readMembers_append_iff ep hmore
  have hset : MembersWhole (if b.head? = some '^'.toUInt8 then b.tail else b) →
      (readSet p).1 = spelledSet b := by
    intro hwhole
    have hmembers := readMembers_append ep hwhole hmore
    have hend := (readMembers_append_iff ep hmore).mpr hwhole
    simp only [readSet, spelledSet, hbehind, hmembers, hend, Option.isSome_some]
    simp only [hneg]
  constructor
  · intro halike
    have hzero := halike.characters 0
    rw [matchBracketClass_eq] at hzero
    cases hep' : (readSet p).2 with
    | none =>
        simp only [hep'] at hzero
        split_ifs at hzero
        simp at hzero
    | some ep' =>
        simp only [hep', Except.ok.injEq, Prod.mk.injEq, Option.some.injEq] at hzero
        rw [hzero.2] at hep'
        exact hread.mp hep'
  · intro hwhole
    apply readAlike_of_characters
    intro c
    simp only [matchBracketClass_eq, hread.mpr hwhole, hset hwhole, hb]

/-! ## A range up to an escape -/

def bytes (cs : List Char) : List UInt8 := cs.map Char.toUInt8

/-- In `[a-%]]` the `%` protects the first `]` for one of the readings, and ends a
range for the other, which closes the set there. -/
theorem range_to_escape_closes_early :
    ∃ p ep, classEnd '['.toUInt8 p = .ok ep ∧ ¬ ReadAlike cLocale p ep := by
  refine ⟨bytes ['a', '-', '%', ']', ']'], [], ?_, fun h => ?_⟩
  · simp [classEnd, classEndLoop, bytes, Char.toUInt8]
  have hread := h.characters ']'.toUInt8
  have hearly : matchBracketClass cLocale ']'.toUInt8 (bytes ['a', '-', '%', ']', ']']) =
      .ok (false, some [']'.toUInt8]) := by
    simp [matchBracketClass, bracketLoop, readMember, Member.holds, bytes, Char.toUInt8]
    rfl
  rw [hearly] at hread
  simp at hread

theorem sets_read_alike_ranges :
    ReadAlike cLocale (bytes [']', '%', 'a', '-', '-', '0', '-', ']', '*']) ['*'.toUInt8] :=
  (sets_read_alike_iff cLocale (by
    simp [classEnd, classEndLoop, bytes, Char.toUInt8])).2.mpr (by
    simp [SetWhole, MembersWhole, MemberWhole, spellMember, setText, bytes, Char.toUInt8])

end Luatier.Pattern
