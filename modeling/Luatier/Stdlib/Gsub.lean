import Mathlib.Algebra.Group.Int.Defs
import Mathlib.Algebra.Group.Nat.Defs
import Luatier.Lib.Scanning
import Luatier.Stdlib.Search

/-!
# Global substitution

`string.gsub` goes through the subject place by place and copies what it does not
replace.  The matches that it replaces are those that the iterator of
`string.gmatch` comes to.
-/

namespace Luatier.Pattern

/-! ## The replacement of a match -/

/-- How a substitution fails; the last is an error that a called function or
metamethod raises. -/
inductive GsubFault (ε : Type) where
  | fault (e : Fault)
  | captureIndex (i : Nat)
  | escape
  | value (typeName : String)
  | raised (e : ε)
  deriving DecidableEq

def GsubFault.message {ε : Type} : GsubFault ε → Option String
  | fault e => e.message
  | captureIndex i => some ("invalid capture index %" ++ toString i)
  | escape => some "invalid use of '%' in replacement string"
  | value typeName => some ("invalid replacement value (a " ++ typeName ++ ")")
  | raised _ => none

/-- What a table or a function gives for a match: `nil` or `false`, a string or
number as text, or a value of another type and how it is shown. -/
inductive Answer where
  | falsy
  | text (b : List UInt8)
  | other (typeName : String) (shown : List UInt8)

/-- The third argument of `string.gsub`.  A table is indexed, and a function called,
in the state `ω` of the program. -/
inductive Replacement (ω ε : Type) where
  | string (repl : List UInt8)
  | table (index : ω → Result → Except ε (ω × Answer))
  | function (call : ω → List Result → Except ε (ω × Answer))

section Replace

variable {ω ε : Type} (s : List UInt8)

def wholeMatch (m : Located) : Except Fault (List UInt8) := substr s m.1 (m.2.matchEnd - m.1)

def expandEscape (m : Located) (c : UInt8) : Except (GsubFault ε) (List UInt8) :=
  if c = '%'.toUInt8 then .ok ['%'.toUInt8]
  else if c = '0'.toUInt8 then (wholeMatch s m).mapError .fault
  else if '1'.toUInt8 ≤ c ∧ c ≤ '9'.toUInt8 then
    let idx := (c - '1'.toUInt8).toNat
    match m.2.captures[idx]? with
    | some capture => (captureString s capture).mapError .fault
    | none =>
        if idx = 0 then (wholeMatch s m).mapError .fault else .error (.captureIndex (idx + 1))
  else .error .escape

/-- `gsub_expand_repl`. -/
def expandRepl (m : Located) : List UInt8 → Except (GsubFault ε) (List UInt8)
  | [] => .ok []
  | c :: rest =>
      if c = '%'.toUInt8 then
        match rest with
        | [] => .error .escape
        | c :: rest => do return (← expandEscape s m c) ++ (← expandRepl m rest)
      else do return c :: (← expandRepl m rest)

def firstCapture (m : Located) : Except Fault Result :=
  match m.2.captures with
  | [] => (wholeMatch s m).map .string
  | capture :: _ => pushCapture s capture

/-- `apply_repl`: what is appended for a match. -/
def applyRepl (repl : Replacement ω ε) (w : ω) (m : Located) :
    Except (GsubFault ε) (ω × List UInt8) :=
  match repl with
  | .string text => do return (w, ← expandRepl s m text)
  | .table index => do
      let key ← (firstCapture s m).mapError .fault
      match ← (index w key).mapError .raised with
      | (w, .falsy) => return (w, ← (wholeMatch s m).mapError .fault)
      | (w, .text b) => return (w, b)
      | (_, .other typeName _) => throw (.value typeName)
  | .function call => do
      let args ← (pushMatch s m.1 m.2).mapError .fault
      match ← (call w args).mapError .raised with
      | (w, .falsy) => return (w, ← (wholeMatch s m).mapError .fault)
      | (w, .text b) => return (w, b)
      | (w, .other _ shown) => return (w, shown)

end Replace

/-! ## The loop -/

def toInt32 (n : Int) : Int := n.bmod (2 ^ 32)

/-- What the loop of `str_gsub` works on. -/
structure GsubState (ω : Type) where
  world : ω
  out : List UInt8 := []
  src : Nat := 0
  lastmatch : Option Nat := none
  count : Int := 0

/-- How the body of the loop ends: it may go on, or has come to the end. -/
inductive GsubStep (ω : Type) where
  | more (st : GsubState ω)
  | done (st : GsubState ω)

section Loop

variable {ω ε : Type} (ct : Ctype) (s p : List UInt8)
  (apply : ω → Located → Except (GsubFault ε) (ω × List UInt8))

/-- The body of the loop up to `if (anchor)`. -/
def gsubBody (st : GsubState ω) : Except (GsubFault ε) (GsubStep ω) :=
  match matchAt ct s kMaxMatchDepth {} st.src p with
  | .error e => .error (.fault (.pattern e))
  | .ok (matched, ms) =>
      if matched ∧ some ms.matchEnd ≠ st.lastmatch then
        (apply st.world (st.src, ms)).map fun (w, text) =>
          .more { world := w, out := st.out ++ text, src := ms.matchEnd,
                  lastmatch := some ms.matchEnd, count := toInt32 (st.count + 1) }
      else
        match s[st.src]? with
        | some c => .ok (.more { st with out := st.out ++ [c], src := st.src + 1 })
        | none => .ok (.done st)

def GsubState.ahead (st : GsubState ω) : Nat :=
  2 * (s.length - st.src) + if st.lastmatch = some st.src then 0 else 1

variable {ct s p apply}

theorem gsubBody_more {st st' : GsubState ω} (h : st.src ≤ s.length)
    (hbody : gsubBody ct s p apply st = .ok (.more st')) :
    st'.src ≤ s.length ∧ st'.ahead s < st.ahead s := by
  simp only [gsubBody] at hbody
  split at hbody
  · simp at hbody
  · rename_i matched ms hmatch
    split at hbody
    · rename_i htaken
      obtain ⟨rfl, hstop⟩ := htaken
      have hin := matchAt_true rfl h hmatch
      have hforward := hin.forward
      cases happly : apply st.world (st.src, ms) with
      | error e => simp [happly, Except.map] at hbody
      | ok r =>
          rw [happly] at hbody
          cases hbody
          refine ⟨hin.inside, ?_⟩
          simp only [GsubState.ahead, if_true]
          by_cases hempty : ms.matchEnd = st.src
          · rw [if_neg (by rw [← hempty]; exact hstop.symm), hempty]
            omega
          · have := hin.inside
            omega
    · split at hbody
      · rename_i c hc
        have hlt := (List.getElem?_eq_some_iff.mp hc).1
        cases hbody
        simp only [GsubState.ahead]
        refine ⟨hlt, ?_⟩
        split <;> split <;> omega
      · simp at hbody

variable (ct s p apply)

/-- The loop of `str_gsub`. -/
def gsubLoop (anchor : Bool) (maxS : Int) (st : GsubState ω) (h : st.src ≤ s.length) :
    Except (GsubFault ε) (GsubState ω) :=
  if st.count < maxS then
    match hbody : gsubBody ct s p apply st with
    | .error e => .error e
    | .ok (.done st) => .ok st
    | .ok (.more st') =>
        if anchor then .ok st' else gsubLoop anchor maxS st' (gsubBody_more h hbody).1
  else .ok st
  termination_by st.ahead s
  decreasing_by exact (gsubBody_more h hbody).2

def GsubState.result (st : GsubState ω) : ω × List UInt8 × Int :=
  (st.world, st.out ++ s.drop st.src, st.count)

/-- `str_gsub` with any way to replace a match. -/
def gsubWith (maxS : Option Int) (w : ω) :
    Except (GsubFault ε) (ω × List UInt8 × Int) :=
  let anchor := p.head? = some '^'.toUInt8
  let patBody := if anchor then p.tail else p
  (gsubLoop ct s patBody apply anchor (maxS.getD (s.length + 1)) { world := w }
    (Nat.zero_le _)).map (GsubState.result s)

def strGsub (repl : Replacement ω ε) (maxS : Option Int) (w : ω) :
    Except (GsubFault ε) (ω × List UInt8 × Int) :=
  gsubWith ct s p (applyRepl s repl) maxS w

end Loop

/-! ## The matches that are found -/

section Matches

variable (ct : Ctype) (s p : List UInt8)

def tryAt (src : Nat) : Except Failure (Option MatchState) :=
  (matchAt ct s kMaxMatchDepth {} src p).map fun (ok, ms) => if ok then some ms else none

/-- The matches that a scan of the subject comes to, but no more than `n`.  An
anchored pattern is only tried at the start. -/
def matchesUpTo (n : Nat) : Except Failure (List Located) :=
  if p.head? = some '^'.toUInt8 then
    if n = 0 then .ok []
    else (tryAt ct s p.tail 0).map fun found => found.toList.map (0, ·)
  else Scanning.upTo (tryAt ct s p) MatchState.matchEnd s.length n none 0

/-- The match that the iterator of `string.gmatch` finds behind `k` others. -/
def gmatchNth (k : Nat) : Except Failure (Option Located) :=
  let st := gmatchAfter ct s p {} k
  gmatchLoop ct s p st.lastmatch st.src

end Matches

variable {ct : Ctype} {s p : List UInt8} {last : Option Nat} {src n k : Nat}
  {found : List Located}

theorem tryAt_some {ms : MatchState} :
    tryAt ct s p src = .ok (some ms) ↔
      matchAt ct s kMaxMatchDepth {} src p = .ok (true, ms) := by
  simp only [tryAt]
  rcases matchAt ct s kMaxMatchDepth {} src p with e | ⟨_ | _, ms'⟩ <;> simp [Except.map]

theorem tryAt_forward : Scanning.Forward (tryAt ct s p) MatchState.matchEnd s.length := by
  intro src ms hsrc h
  have hin := matchAt_true rfl hsrc (tryAt_some.mp h)
  exact ⟨hin.forward, hin.inside⟩

theorem gmatchLoop_eq_next :
    gmatchLoop ct s p last src =
      Scanning.next (tryAt ct s p) MatchState.matchEnd s.length last src := by
  induction hn : s.length + 1 - src using Nat.strongRecOn generalizing src with
  | ind n ih =>
      rw [gmatchLoop, Scanning.next, tryAt]
      by_cases hle : src ≤ s.length
      · have hrest : gmatchLoop ct s p last (src + 1) = _ := ih _ (by omega) rfl
        rcases matchAt ct s kMaxMatchDepth {} src p with e | ⟨_ | _, ms⟩
        · simp [hle, bind, Except.bind, Except.map]
        · simp [hle, bind, Except.bind, Except.map, hrest]
        · by_cases hstop : some ms.matchEnd = last <;>
            simp [hle, bind, Except.bind, Except.map, pure, Except.pure, hrest, hstop]
      · simp [hle, pure, Except.pure]

theorem gmatchIter_eq {st : GmatchState} :
    (gmatchIter ct s p st).1 =
      match gmatchLoop ct s p st.lastmatch st.src with
      | .ok (some (_, ms)) => ⟨ms.matchEnd, some ms.matchEnd⟩
      | _ => st := by
  simp only [gmatchIter]
  rcases gmatchLoop ct s p st.lastmatch st.src with e | _ | ⟨i, ms⟩ <;> rfl

/-- One call of the iterator behind the other finds the matches of a scan, and then
nothing. -/
theorem gmatchAfter_finds {st : GmatchState} (hk : k < n)
    (h : Scanning.upTo (tryAt ct s p) MatchState.matchEnd s.length n st.lastmatch st.src =
      .ok found) :
    gmatchLoop ct s p (gmatchAfter ct s p st k).lastmatch (gmatchAfter ct s p st k).src =
      .ok found[k]? := by
  induction n generalizing st found k with
  | zero => omega
  | succ n ih =>
      have hiter : (gmatchIter ct s p st).1 = _ := gmatchIter_eq
      rw [Scanning.upTo, ← gmatchLoop_eq_next] at h
      split at h
      · simp at h
      · rename_i hnext
        cases h
        have hstay : gmatchAfter ct s p st k = st := by
          induction k with
          | zero => rfl
          | succ k ihk => rw [gmatchAfter, hiter, hnext, ihk (by omega)]
        simp [hstay, hnext]
      · rename_i i ms hnext
        rw [hnext] at hiter
        cases hrest : Scanning.upTo (tryAt ct s p) MatchState.matchEnd s.length n
            (some ms.matchEnd) ms.matchEnd with
        | error e => simp [hrest, Except.map] at h
        | ok rest =>
            rw [hrest] at h
            cases h
            cases k with
            | zero => simp [gmatchAfter, hnext]
            | succ k =>
                rw [gmatchAfter, hiter]
                simpa using @ih _ _ ⟨ms.matchEnd, some ms.matchEnd⟩ (by omega) hrest

/-! ## What the loop replaces -/

variable {ω ε : Type} {apply : ω → Located → Except (GsubFault ε) (ω × List UInt8)}
  {maxS : Int} {st : GsubState ω}

theorem toInt32_add (m n : Int) : toInt32 (toInt32 m + n) = toInt32 (m + n) := by
  simp [toInt32]

@[simp]
theorem toInt32_toInt32 (n : Int) : toInt32 (toInt32 n) = toInt32 n := by
  simpa using toInt32_add n 0

theorem toInt32_of_range {n : Int} (hlo : -2 ^ 31 ≤ n) (hhi : n < 2 ^ 31) : toInt32 n = n :=
  Int.bmod_eq_of_le (by simpa using hlo) (by simpa using hhi)

theorem toInt32_lt (n : Int) : toInt32 n < 2 ^ 31 := by
  have := Int.bmod_lt (x := n) (m := 2 ^ 32) (by decide)
  simp only [toInt32]
  omega

/-- The count allows `n` replacements more.  A count that wraps stays below a limit
that no `int` reaches, and then there is only the room for matches. -/
def Allows (maxS count : Int) (n room : Nat) : Prop :=
  (0 ≤ count ∧ maxS < 2 ^ 31 ∧ n = (maxS - count).toNat) ∨
    (count < 2 ^ 31 ∧ 2 ^ 31 ≤ maxS ∧ room < n)

theorem Allows.mono {count : Int} {room room' : Nat} (h : Allows maxS count n room)
    (hroom : room' ≤ room) : Allows maxS count n room' :=
  h.imp_right fun h => ⟨h.1, h.2.1, Nat.lt_of_le_of_lt hroom h.2.2⟩

theorem Allows.step {count : Int} {n room room' : Nat} (h : Allows maxS count (n + 1) room)
    (hroom : room' < room) : Allows maxS (toInt32 (count + 1)) n room' := by
  obtain ⟨hpos, hmax, hn⟩ | ⟨hcount, hmax, hn⟩ := h
  · have hsame : toInt32 (count + 1) = count + 1 := toInt32_of_range (by omega) (by omega)
    exact .inl (by rw [hsame]; omega)
  · exact .inr ⟨toInt32_lt _, hmax, by omega⟩

/-- The result of the loop when it has copied or replaced everything behind `st`. -/
def Replaces (s : List UInt8)
    (apply : ω → Located → Except (GsubFault ε) (ω × List UInt8)) (st : GsubState ω)
    (r : Except (GsubFault ε) (ω × List UInt8 × Int)) : Except Failure (List Located) → Prop
  | .error _ => ∃ e, r = .error e
  | .ok found => r = (Scanning.splice MatchState.matchEnd s apply st.world st.src found).map
      fun (w, text) => (w, st.out ++ text, toInt32 (st.count + found.length))

theorem Replaces.copied {c : UInt8} {r : Except (GsubFault ε) (ω × List UInt8 × Int)}
    (h : Replaces s apply { st with out := st.out ++ [c], src := st.src + 1 } r
      (Scanning.upTo (tryAt ct s p) MatchState.matchEnd s.length n st.lastmatch (st.src + 1)))
    (hc : s[st.src]? = some c) :
    Replaces s apply st r
      (Scanning.upTo (tryAt ct s p) MatchState.matchEnd s.length n st.lastmatch (st.src + 1)) := by
  obtain ⟨hlt, rfl⟩ := List.getElem?_eq_some_iff.mp hc
  cases hfound : Scanning.upTo (tryAt ct s p) MatchState.matchEnd s.length n st.lastmatch
      (st.src + 1) with
  | error e =>
      rw [hfound] at h
      exact h
  | ok found =>
      rw [hfound] at h
      simp only [Replaces] at h ⊢
      rw [h, Scanning.splice_skip hlt (Scanning.upTo_inOrder tryAt_forward hfound)]
      cases Scanning.splice MatchState.matchEnd s apply st.world (st.src + 1) found <;>
        simp [Except.map]

theorem replaces_raised {ms : MatchState} {e : GsubFault ε} {r : Except Failure (List Located)}
    (happly : apply st.world (st.src, ms) = .error e) :
    Replaces s apply st (.error e) (r.map ((st.src, ms) :: ·)) := by
  cases r with
  | error e' => exact ⟨e, rfl⟩
  | ok found => simp [Except.map, Replaces, Scanning.splice, happly]

theorem Replaces.replaced {ms : MatchState} {w : ω × List UInt8}
    {r : Except (GsubFault ε) (ω × List UInt8 × Int)} {found : Except Failure (List Located)}
    (happly : apply st.world (st.src, ms) = .ok w)
    (h : Replaces s apply
      { world := w.1, out := st.out ++ w.2, src := ms.matchEnd, lastmatch := some ms.matchEnd,
        count := toInt32 (st.count + 1) } r found) :
    Replaces s apply st r (found.map ((st.src, ms) :: ·)) := by
  cases found with
  | error e => exact h
  | ok found =>
      simp only [Replaces, Except.map, Scanning.splice, happly] at h ⊢
      rw [h, toInt32_add]
      cases Scanning.splice MatchState.matchEnd s apply w.1 ms.matchEnd found with
      | error e => rfl
      | ok t => simp [Int.add_assoc, Int.add_comm 1]

theorem gsubLoop_stop (h : st.src ≤ s.length) (hlimit : ¬ st.count < maxS) (anchor : Bool) :
    gsubLoop ct s p apply anchor maxS st h = .ok st := by
  rw [gsubLoop]
  simp [hlimit]

theorem gsubLoop_error {e : GsubFault ε} (h : st.src ≤ s.length) (hlimit : st.count < maxS)
    (hbody : gsubBody ct s p apply st = .error e) (anchor : Bool) :
    gsubLoop ct s p apply anchor maxS st h = .error e := by
  rw [gsubLoop]
  simp only [hlimit, if_true]
  split <;> simp_all

theorem gsubLoop_done {st' : GsubState ω} (h : st.src ≤ s.length) (hlimit : st.count < maxS)
    (hbody : gsubBody ct s p apply st = .ok (.done st')) (anchor : Bool) :
    gsubLoop ct s p apply anchor maxS st h = .ok st' := by
  rw [gsubLoop]
  simp only [hlimit, if_true]
  split <;> simp_all

theorem gsubLoop_more {st' : GsubState ω} (h : st.src ≤ s.length) (hlimit : st.count < maxS)
    (hbody : gsubBody ct s p apply st = .ok (.more st')) :
    gsubLoop ct s p apply false maxS st h =
      gsubLoop ct s p apply false maxS st' (gsubBody_more h hbody).1 := by
  rw [gsubLoop]
  simp only [hlimit, if_true]
  split
  · simp_all
  · simp_all
  · rename_i st'' hmore
    rw [hbody] at hmore
    cases hmore
    simp

theorem gsubLoop_anchored {st' : GsubState ω} (h : st.src ≤ s.length) (hlimit : st.count < maxS)
    (hbody : gsubBody ct s p apply st = .ok (.more st')) :
    gsubLoop ct s p apply true maxS st h = .ok st' := by
  rw [gsubLoop]
  simp only [hlimit, if_true]
  split <;> simp_all

theorem gsubBody_skip (hskip : tryAt ct s p st.src = .ok none ∨
      Scanning.Passed (tryAt ct s p) MatchState.matchEnd st.lastmatch st.src) :
    gsubBody ct s p apply st =
      match s[st.src]? with
      | some c => .ok (.more { st with out := st.out ++ [c], src := st.src + 1 })
      | none => .ok (.done st) := by
  simp only [gsubBody]
  rcases hr : matchAt ct s kMaxMatchDepth {} st.src p with e | ⟨_ | _, ms⟩
  · simp [tryAt, hr, Except.map, Scanning.Passed] at hskip
  · simp
  · have hstop : some ms.matchEnd = st.lastmatch := by
      simpa [tryAt, hr, Except.map, Scanning.Passed] using hskip
    simp [hstop]

theorem next_skip (hskip : tryAt ct s p src = .ok none ∨
      Scanning.Passed (tryAt ct s p) MatchState.matchEnd last src) :
    Scanning.next (tryAt ct s p) MatchState.matchEnd s.length last src =
      Scanning.next (tryAt ct s p) MatchState.matchEnd s.length last (src + 1) := by
  cases hskip with
  | inl hnothing => exact Scanning.next_nothing hnothing
  | inr hpassed => exact Scanning.next_passed hpassed

theorem gsubBody_taken {ms : MatchState} (hmatch : tryAt ct s p st.src = .ok (some ms))
    (hstop : some ms.matchEnd ≠ st.lastmatch) :
    gsubBody ct s p apply st =
      (apply st.world (st.src, ms)).map fun (w, text) =>
        .more { world := w, out := st.out ++ text, src := ms.matchEnd,
                lastmatch := some ms.matchEnd, count := toInt32 (st.count + 1) } := by
  simp [gsubBody, tryAt_some.mp hmatch, hstop]

theorem gsubBody_error {e : Failure} (hmatch : tryAt ct s p st.src = .error e) :
    gsubBody ct s p apply st = .error (.fault (.pattern e)) := by
  simp only [tryAt] at hmatch
  simp only [gsubBody]
  rcases hr : matchAt ct s kMaxMatchDepth {} st.src p with e' | ⟨_ | _, ms⟩
  · simpa [hr, Except.map] using hmatch
  · simp [hr, Except.map] at hmatch
  · simp [hr, Except.map] at hmatch

theorem gsubLoop_replaces (h : st.src ≤ s.length) (hcount : toInt32 st.count = st.count)
    (hallows : Allows maxS st.count n
      (Scanning.room (tryAt ct s p) MatchState.matchEnd s.length st.lastmatch st.src)) :
    Replaces s apply st
      ((gsubLoop ct s p apply false maxS st h).map (GsubState.result s))
      (Scanning.upTo (tryAt ct s p) MatchState.matchEnd s.length n st.lastmatch st.src) := by
  induction hm : st.ahead s using Nat.strongRecOn generalizing st n with
  | ind m ih =>
      by_cases hlimit : st.count < maxS
      · obtain ⟨n, rfl⟩ : ∃ n', n = n' + 1 := by
          apply Nat.exists_eq_add_one.mpr
          simp only [Allows] at hallows
          omega
        by_cases hskip : tryAt ct s p st.src = .ok none ∨
            Scanning.Passed (tryAt ct s p) MatchState.matchEnd st.lastmatch st.src
        · have hbody : gsubBody ct s p apply st = _ := gsubBody_skip hskip
          rw [Scanning.upTo_congr (next_skip hskip)]
          cases hc : s[st.src]? with
          | none =>
              rw [hc] at hbody
              have hend := List.getElem?_eq_none_iff.mp hc
              rw [gsubLoop_done h hlimit hbody, Scanning.upTo_past (by omega)]
              simp [Replaces, Except.map, Scanning.splice, GsubState.result, hcount]
          | some c =>
              rw [hc] at hbody
              have hmore := gsubBody_more h hbody
              have hrest := ih _ (hm ▸ hmore.2) hmore.1 hcount
                (hallows.mono Scanning.room_succ_le) rfl
              rw [gsubLoop_more h hlimit hbody]
              exact hrest.copied hc
        · cases hmatch : tryAt ct s p st.src with
          | error e =>
              rw [gsubLoop_error h hlimit (gsubBody_error hmatch), Scanning.upTo_error h hmatch]
              exact ⟨_, rfl⟩
          | ok r =>
              rcases r with _ | ms
              · simp [hmatch] at hskip
              · have hstop : some ms.matchEnd ≠ st.lastmatch := by
                  simpa [hmatch, Scanning.Passed] using hskip
                have hbody : gsubBody ct s p apply st = _ := gsubBody_taken hmatch hstop
                rw [Scanning.upTo_taken h hmatch hstop]
                cases happly : apply st.world (st.src, ms) with
                | error e =>
                    rw [happly] at hbody
                    rw [gsubLoop_error h hlimit hbody]
                    exact replaces_raised happly
                | ok r =>
                    rw [happly] at hbody
                    have hmore := gsubBody_more h hbody
                    have hroom := Scanning.room_decreases tryAt_forward
                      (Scanning.next_taken h hmatch hstop)
                    have hrest := ih _ (hm ▸ hmore.2) hmore.1 (toInt32_toInt32 _)
                      (hallows.step hroom) rfl
                    rw [gsubLoop_more h hlimit hbody]
                    exact hrest.replaced happly
      · obtain rfl : n = 0 := by
          simp only [Allows] at hallows
          omega
        rw [gsubLoop_stop h hlimit]
        simp [Replaces, Except.map, Scanning.splice, GsubState.result, hcount]

/-! ## The whole function -/

variable {limit : Option Int} {w w' : ω}

theorem gsubWith_anchored (hp : p.head? = some '^'.toUInt8)
    (hn : n = 0 ↔ limit.getD (s.length + 1) ≤ 0) :
    Replaces s apply { world := w } (gsubWith ct s p apply limit w) (matchesUpTo ct s p n) := by
  simp only [gsubWith, matchesUpTo, hp, if_true, decide_true]
  by_cases hlimit : (0 : Int) < limit.getD (s.length + 1)
  · have hn0 : n ≠ 0 := by omega
    simp only [hn0, if_false]
    cases hmatch : tryAt ct s p.tail 0 with
    | error e =>
        rw [gsubLoop_error _ hlimit (gsubBody_error hmatch)]
        exact ⟨_, rfl⟩
    | ok r =>
        rcases r with _ | ms
        · have hbody : gsubBody ct s p.tail apply { world := w } = _ :=
            gsubBody_skip (.inl hmatch)
          cases s with
          | nil =>
              rw [gsubLoop_done _ hlimit hbody]
              rfl
          | cons c s =>
              rw [gsubLoop_anchored _ hlimit hbody]
              rfl
        · have hbody : gsubBody ct s p.tail apply { world := w } = _ :=
            gsubBody_taken hmatch (by simp)
          cases happly : apply w (0, ms) with
          | error e =>
              simp only [happly, Except.map] at hbody
              rw [gsubLoop_error _ hlimit hbody]
              simp [Replaces, Except.map, Scanning.splice, happly]
          | ok r =>
              simp only [happly, Except.map] at hbody
              rw [gsubLoop_anchored _ hlimit hbody]
              simp [Replaces, Except.map, Scanning.splice, happly, GsubState.result]
  · have hn0 : n = 0 := by omega
    rw [gsubLoop_stop _ hlimit]
    simp [hn0, Replaces, Except.map, Scanning.splice, GsubState.result, toInt32]

theorem gsubWith_replaces
    (hallows : Allows (limit.getD (s.length + 1)) 0 n (s.length + 1)) :
    Replaces s apply { world := w } (gsubWith ct s p apply limit w) (matchesUpTo ct s p n) := by
  by_cases hp : p.head? = some '^'.toUInt8
  · apply gsubWith_anchored hp
    simp only [Allows] at hallows
    omega
  · have hroom : Allows (limit.getD (s.length + 1)) ({ world := w } : GsubState ω).count n
        (Scanning.room (tryAt ct s p) MatchState.matchEnd s.length none 0) := by
      simpa [Scanning.room_start] using hallows
    have hloop : Replaces s apply { world := w } _ _ :=
      gsubLoop_replaces (Nat.zero_le _) rfl hroom
    simpa [gsubWith, matchesUpTo, hp] using hloop

theorem applyRepl_whole {i : Nat} {ms : MatchState} (hforward : i ≤ ms.matchEnd)
    (hin : ms.matchEnd ≤ s.length) :
    applyRepl (ε := ε) s (.string (bytes ['%', '0'])) w (i, ms) =
      .ok (w, (s.drop i).take (ms.matchEnd - i)) := by
  have hsub : ¬ s.length < i := by omega
  have hzero : '0'.toUInt8 ≠ '%'.toUInt8 := by decide
  simp [applyRepl, bytes, expandRepl, expandEscape, wholeMatch, substr, hsub, hzero, bind,
    Except.bind, pure, Except.pure, Except.mapError]

theorem matchesUpTo_inOrder (h : matchesUpTo ct s p n = .ok found) :
    Scanning.InOrder MatchState.matchEnd s.length 0 found := by
  simp only [matchesUpTo] at h
  split at h
  · split at h
    · cases h
      trivial
    · cases hr : tryAt ct s p.tail 0 with
      | error e => simp [hr, Except.map] at h
      | ok r =>
          rw [hr] at h
          cases h
          cases r with
          | none => trivial
          | some ms =>
              have hin := tryAt_forward 0 ms (Nat.zero_le _) hr
              exact ⟨Nat.zero_le _, hin.1, hin.2, trivial⟩
  · exact Scanning.upTo_inOrder tryAt_forward h

theorem matchesUpTo_take {m : Nat} (hmn : m ≤ n) (h : matchesUpTo ct s p n = .ok found) :
    matchesUpTo ct s p m = .ok (found.take m) := by
  simp only [matchesUpTo] at h ⊢
  split at h
  · rename_i hp
    rw [if_pos hp]
    cases m with
    | zero => simp
    | succ m =>
        have hn : n ≠ 0 := by omega
        simp only [hn, if_false, Nat.succ_ne_zero] at h ⊢
        rcases hr : tryAt ct s p.tail 0 with e | _ | ms
        · simp [hr, Except.map] at h
        · simp only [hr, Except.map, Except.ok.injEq] at h
          simp [← h, Except.map]
        · simp only [hr, Except.map, Except.ok.injEq] at h
          simp [← h, Except.map]
  · rename_i hp
    simpa [hp] using Scanning.upTo_take hmn h

/-- With every match replaced by itself, each byte of the subject is copied once. -/
theorem strGsub_whole (hallows : Allows (limit.getD (s.length + 1)) 0 n (s.length + 1))
    (hfound : matchesUpTo ct s p n = .ok found) :
    strGsub (ε := ε) ct s p (.string (bytes ['%', '0'])) limit w =
      .ok (w, s, toInt32 found.length) := by
  have hreplaces : Replaces s (applyRepl (ε := ε) s (.string (bytes ['%', '0'])))
      { world := w } _ (matchesUpTo ct s p n) := gsubWith_replaces hallows
  have hself : Scanning.splice _ s (applyRepl (ε := ε) s (.string (bytes ['%', '0']))) w 0 found =
      .ok (w, s.drop 0) :=
    Scanning.splice_self (fun _ _ _ => applyRepl_whole) (matchesUpTo_inOrder hfound)
  rw [hfound] at hreplaces
  simp only [Replaces] at hreplaces
  simp [strGsub, hreplaces, hself, Except.map]

theorem matches_of_gsub (hallows : Allows (limit.getD (s.length + 1)) 0 n (s.length + 1))
    {r : ω × List UInt8 × Int} (h : gsubWith ct s p apply limit w = .ok r) :
    ∃ found, matchesUpTo ct s p n = .ok found := by
  have hreplaces : Replaces s apply { world := w } _ (matchesUpTo ct s p n) :=
    gsubWith_replaces hallows
  cases hfound : matchesUpTo ct s p n with
  | error e =>
      rw [hfound, h] at hreplaces
      simp [Replaces] at hreplaces
  | ok found => exact ⟨found, rfl⟩

/-- Where no error is raised, replacing every match by itself gives the subject, and
the count is that of the matches exactly when an `int` can hold it. -/
theorem gsub_whole_match_iff {out : List UInt8} {count : Int}
    (h : strGsub (ε := ε) ct s p (.string (bytes ['%', '0'])) limit w = .ok (w', out, count)) :
    ∃ found, matchesUpTo ct s p (limit.getD (s.length + 1)).toNat = .ok found ∧ out = s ∧
      (count = found.length ↔ found.length < 2 ^ 31) := by
  by_cases hmax : limit.getD (s.length + 1) < 2 ^ 31
  · have hallows : Allows (limit.getD (s.length + 1)) 0 (limit.getD (s.length + 1)).toNat
        (s.length + 1) := .inl ⟨Int.le_refl _, hmax, by simp⟩
    obtain ⟨found, hfound⟩ := matches_of_gsub hallows h
    have hlen : found.length ≤ (limit.getD (s.length + 1)).toNat := by
      have htake := matchesUpTo_take (Nat.le_refl _) hfound
      rw [hfound, Except.ok.injEq] at htake
      rw [htake]
      exact List.length_take_le _ _
    have hcount : toInt32 found.length = found.length := toInt32_of_range (by omega) (by omega)
    rw [strGsub_whole hallows hfound, hcount] at h
    cases h
    exact ⟨found, hfound, rfl, by omega⟩
  · have hallows : Allows (limit.getD (s.length + 1)) 0
        ((limit.getD (s.length + 1)).toNat + s.length + 2) (s.length + 1) :=
      .inr ⟨by decide, by omega, by omega⟩
    obtain ⟨all, hall⟩ := matches_of_gsub hallows h
    have hfound := matchesUpTo_take (m := (limit.getD (s.length + 1)).toNat) (by omega) hall
    rw [strGsub_whole hallows hall] at h
    cases h
    refine ⟨_, hfound, rfl, ?_⟩
    rw [List.length_take]
    constructor
    · intro heq
      have := toInt32_lt all.length
      omega
    · intro hlt
      have : toInt32 all.length = all.length := toInt32_of_range (by omega) (by omega)
      omega

theorem gsub_whole_match_words :
    ∃ found, matchesUpTo cLocale (bytes ['a', '-', '-', 'b']) (bytes ['%', 'a', '*'])
        ((none : Option Int).getD ((bytes ['a', '-', '-', 'b']).length + 1)).toNat = .ok found ∧
      bytes ['a', '-', '-', 'b'] = bytes ['a', '-', '-', 'b'] ∧
      ((3 : Int) = found.length ↔ found.length < 2 ^ 31) :=
  gsub_whole_match_iff (by decide +kernel :
    strGsub (ε := Empty) cLocale (bytes ['a', '-', '-', 'b']) (bytes ['%', 'a', '*'])
      (.string (bytes ['%', '0'])) none () = .ok ((), bytes ['a', '-', '-', 'b'], 3))

/-! ### A subject with too many matches -/

theorem tryAt_empty : tryAt ct s [] src = .ok (some { matchEnd := src }) := by
  have hloop : matchAt ct s kMaxMatchDepth {} src [] = .ok (true, { matchEnd := src }) := by
    rw [kMaxMatchDepth, matchAt, matchDepthGuard, matchLoop]
    simp [matchStep, bind, Except.bind, pure, Except.pure]
  rw [tryAt, hloop]
  rfl

theorem upTo_empty (ct : Ctype) (s : List UInt8) (n : Nat) (hsrc : src ≤ s.length) :
    ∃ found, Scanning.upTo (tryAt ct s []) MatchState.matchEnd s.length n (some src) src =
      .ok found ∧ found.length = min n (s.length - src) := by
  induction n generalizing src with
  | zero => exact ⟨[], rfl, by simp⟩
  | succ n ih =>
      have hpassed : Scanning.Passed (tryAt ct s []) MatchState.matchEnd (some src) src :=
        ⟨_, tryAt_empty, rfl⟩
      rw [Scanning.upTo_congr (Scanning.next_passed hpassed)]
      by_cases hlt : src < s.length
      · obtain ⟨found, hfound, hlen⟩ := ih hlt
        rw [Scanning.upTo_taken hlt tryAt_empty (by simp)]
        exact ⟨(src + 1, { matchEnd := src + 1 }) :: found, by simp [hfound, Except.map],
          by simp only [List.length_cons]; omega⟩
      · exact ⟨[], Scanning.upTo_past (by omega), by simp only [List.length_nil]; omega⟩

theorem matchesUpTo_empty (ct : Ctype) (s : List UInt8) (n : Nat) :
    ∃ found, matchesUpTo ct s [] (n + 1) = .ok found ∧
      found.length = min n s.length + 1 := by
  obtain ⟨found, hfound, hlen⟩ := upTo_empty ct s n (Nat.zero_le _)
  refine ⟨(0, {}) :: found, ?_, by simpa using hlen⟩
  have htaken : Scanning.upTo (tryAt ct s []) MatchState.matchEnd s.length (n + 1) none 0 = _ :=
    Scanning.upTo_taken (Nat.zero_le s.length) tryAt_empty (by simp)
  simp [matchesUpTo, htaken, hfound, Except.map]

/-- Behind 2147483647 characters there is one empty match more than an `int` counts. -/
theorem gsub_empty_wraps (hlen : s.length = 2147483647) :
    ∃ found, matchesUpTo ct s [] (s.length + 1) = .ok found ∧ found.length = 2147483648 ∧
      strGsub (ε := ε) ct s [] (.string (bytes ['%', '0'])) none w = .ok (w, s, -2147483648) := by
  obtain ⟨found, hfound, hcount⟩ := matchesUpTo_empty ct s s.length
  obtain ⟨all, hall, hsame⟩ := matchesUpTo_empty ct s (s.length + 1)
  have hallows : Allows ((none : Option Int).getD (s.length + 1)) 0 (s.length + 1 + 1)
      (s.length + 1) := .inr ⟨by decide, by rw [hlen]; decide, Nat.lt_succ_self _⟩
  have hgsub := strGsub_whole (ε := ε) (w := w) hallows hall
  have hwrap : toInt32 2147483648 = -2147483648 := by decide
  refine ⟨found, hfound, by omega, ?_⟩
  rw [hgsub, hsame, Nat.min_eq_right (Nat.le_succ _), hlen]
  simpa using hwrap

theorem gsub_count_wraps :
    ∃ found, matchesUpTo cLocale (List.replicate 2147483647 'a'.toUInt8) []
        ((List.replicate 2147483647 'a'.toUInt8).length + 1) = .ok found ∧
      found.length = 2147483648 ∧
      strGsub (ω := Unit) (ε := Empty) cLocale (List.replicate 2147483647 'a'.toUInt8) []
        (.string (bytes ['%', '0'])) none () =
        .ok ((), List.replicate 2147483647 'a'.toUInt8, -2147483648) :=
  gsub_empty_wraps List.length_replicate

/-! ## The iterator sees the same matches -/

theorem gmatchNth_eq (h : Scanning.upTo (tryAt ct s p) MatchState.matchEnd s.length n none 0 =
    .ok found) (hn : s.length + 1 ≤ n) (k : Nat) :
    gmatchNth ct s p k = .ok found[k]? := by
  have hroom : Scanning.room (tryAt ct s p) MatchState.matchEnd s.length none 0 = _ :=
    Scanning.room_start
  have hmore := Scanning.upTo_eq_of_room (n := n + k + 1) tryAt_forward (Nat.zero_le _)
    (hroom.trans_le hn) (by omega)
  exact @gmatchAfter_finds ct s p _ _ _ {} (by omega) (hmore.trans h)

/-- Where no error is raised, the matches that a substitution without a limit replaces
are those that the iterator finds, one call behind the other, and there are no more
than the subject has places. -/
theorem gmatch_gsub_same_matches {repl : Replacement ω ε} {r : List UInt8 × Int}
    (hp : p.head? ≠ some '^'.toUInt8) (h : strGsub ct s p repl none w = .ok (w', r)) :
    ∃ log, gsubWith ct s p (Scanning.logged (applyRepl s repl)) none (w, []) =
        .ok ((w', log), r) ∧
      (∀ k, gmatchNth ct s p k = .ok log[k]?) ∧
      log.length ≤ s.length + 1 ∧
      ∀ k, log.length ≤ k → (gmatchIter ct s p (gmatchAfter ct s p {} k)).2 = .ok [.nil] := by
  have hallows : ∃ n, s.length + 1 ≤ n ∧
      Allows ((none : Option Int).getD (s.length + 1)) 0 n (s.length + 1) := by
    by_cases hmax : (s.length + 1 : Int) < 2 ^ 31
    · exact ⟨s.length + 1, Nat.le_refl _, .inl ⟨Int.le_refl _, hmax, by simp⟩⟩
    · exact ⟨s.length + 2, Nat.le_succ _, .inr ⟨by decide, by simp; omega, Nat.lt_succ_self _⟩⟩
  obtain ⟨n, hn, hallows⟩ := hallows
  obtain ⟨found, hfound⟩ := matches_of_gsub hallows h
  have hscan : Scanning.upTo (tryAt ct s p) MatchState.matchEnd s.length n none 0 =
      .ok found := by
    simpa [matchesUpTo, hp] using hfound
  have hplain : Replaces s (applyRepl s repl) { world := w } _ (matchesUpTo ct s p n) :=
    gsubWith_replaces hallows
  have hlogged : Replaces s (Scanning.logged (applyRepl s repl)) { world := (w, []) } _
      (matchesUpTo ct s p n) := gsubWith_replaces hallows
  rw [hfound] at hplain hlogged
  simp only [Replaces, Scanning.splice_logged, List.nil_append] at hplain hlogged
  refine ⟨found, ?_, gmatchNth_eq hscan hn, ?_, fun k hk => ?_⟩
  · rw [strGsub, hplain] at h
    rw [hlogged]
    cases hsplice : Scanning.splice MatchState.matchEnd s (applyRepl s repl) w 0 found with
    | error e => simp [hsplice, Except.map] at h
    | ok t =>
        rw [hsplice] at h
        cases h
        rfl
  · have hlen := Scanning.upTo_length tryAt_forward hscan
    rwa [Scanning.room_start] at hlen
  · have hnone := gmatchNth_eq hscan hn k
    rw [List.getElem?_eq_none hk] at hnone
    simp only [gmatchNth] at hnone
    simp [gmatchIter, hnone]

theorem gmatch_gsub_same_words :
    ∃ log, gsubWith (ε := Empty) cLocale (bytes ['a', '-', '-', 'b']) (bytes ['%', 'a', '*'])
        (Scanning.logged (applyRepl (bytes ['a', '-', '-', 'b'])
          (.string (bytes ['<', '%', '1', '>'])))) none ((), []) =
        .ok (((), log), bytes ['<', 'a', '>', '-', '<', '>', '-', '<', 'b', '>'], 3) ∧
      (∀ k, gmatchNth cLocale (bytes ['a', '-', '-', 'b']) (bytes ['%', 'a', '*']) k =
        .ok log[k]?) ∧
      log.length ≤ (bytes ['a', '-', '-', 'b']).length + 1 ∧
      ∀ k, log.length ≤ k →
        (gmatchIter cLocale (bytes ['a', '-', '-', 'b']) (bytes ['%', 'a', '*'])
          (gmatchAfter cLocale (bytes ['a', '-', '-', 'b']) (bytes ['%', 'a', '*']) {} k)).2 =
          .ok [.nil] :=
  gmatch_gsub_same_matches (by decide) (by decide +kernel)

end Luatier.Pattern
