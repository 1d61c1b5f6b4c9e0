import Mathlib.Data.List.TakeWhile
import Mathlib.Order.Basic
import Luatier.Lib.CLocale
import Luatier.Lib.StateFrame

/-!
# Lua patterns

The matcher of the string library.  An index into the pattern is modelled by the
text from there on; the subject is read by index, since captures keep positions
of it.  `match` calls itself only through its depth guard, and comes back to
`init` without a call where an item leaves it no choice.
-/

namespace Luatier.Pattern

/-- The character tests of the locale that the program runs in. -/
structure Ctype where
  tolower : UInt8 → UInt8
  isalpha : UInt8 → Bool
  iscntrl : UInt8 → Bool
  isdigit : UInt8 → Bool
  isgraph : UInt8 → Bool
  islower : UInt8 → Bool
  ispunct : UInt8 → Bool
  isspace : UInt8 → Bool
  isupper : UInt8 → Bool
  isalnum : UInt8 → Bool
  isxdigit : UInt8 → Bool

def cLocale : Ctype where
  tolower := CLocale.tolower
  isalpha := CLocale.isalpha
  iscntrl := CLocale.iscntrl
  isdigit := CLocale.isdigit
  isgraph := CLocale.isgraph
  islower := CLocale.islower
  ispunct := CLocale.ispunct
  isspace := CLocale.isspace
  isupper := CLocale.isupper
  isalnum := CLocale.isalnum
  isxdigit := CLocale.isxdigit

/-- The ways in which `match` does not return.  All but the last are errors that
it raises; the last is a read behind the subject, of which nothing is known. -/
inductive Failure where
  | tooComplex
  | missingBracket
  | endsWithEscape
  | missingFrontierSet
  | missingBalanceArgs
  | invalidCapture
  | invalidCaptureIndex (i : Nat)
  | readPastEnd
  deriving DecidableEq, Repr

def Failure.message : Failure → Option String
  | tooComplex => some "pattern too complex"
  | missingBracket => some "malformed pattern (missing ']')"
  | endsWithEscape => some "malformed pattern (ends with '%')"
  | missingFrontierSet => some "missing '[' after '%f' in pattern"
  | missingBalanceArgs => some "malformed pattern (missing arguments to '%b')"
  | invalidCapture => some "invalid pattern capture"
  | invalidCaptureIndex i => some ("invalid capture index %" ++ toString i)
  | readPastEnd => none

/-- Where a capture ends; the first two are `kCapUnfinished` and `kCapPosition`. -/
inductive CapEnd where
  | unfinished
  | position
  | closed (e : Nat)
  deriving DecidableEq, Repr

abbrev Captures := List (Nat × CapEnd)

def kMaxMatchDepth : Nat := 200

structure MatchState where
  matchEnd : Nat := 0
  matchdepth : Int := kMaxMatchDepth
  captures : Captures := []
  deriving DecidableEq, Repr

def matchClass (ct : Ctype) (ch clas : UInt8) : Bool :=
  let res : Option Bool :=
    match Char.ofUInt8 (ct.tolower clas) with
    | 'a' => some (ct.isalpha ch)
    | 'c' => some (ct.iscntrl ch)
    | 'd' => some (ct.isdigit ch)
    | 'g' => some (ct.isgraph ch)
    | 'l' => some (ct.islower ch)
    | 'p' => some (ct.ispunct ch)
    | 's' => some (ct.isspace ch)
    | 'u' => some (ct.isupper ch)
    | 'w' => some (ct.isalnum ch)
    | 'x' => some (ct.isxdigit ch)
    | 'z' => some (ch == 0)
    | _ => none
  match res with
  | none => ch == clas
  | some res => if ct.islower clas then res else !res

/-- A member of a set: `%x`, or the characters from one to another. -/
inductive Member where
  | clas (x : UInt8)
  | range (lo hi : UInt8)
  deriving DecidableEq, Repr

def Member.holds (ct : Ctype) (c : UInt8) : Member → Bool
  | clas x => matchClass ct c x
  | range lo hi => lo ≤ c && c ≤ hi

/-- The body of the loop of `match_bracket_class` up to the test: the member
that starts with `lo`, and the text behind it. -/
def readMember (lo : UInt8) (rest : List UInt8) : Member × List UInt8 :=
  match rest with
  | [] => (.range lo lo, [])
  | x :: rest' =>
      if lo = '%'.toUInt8 then (.clas x, rest')
      else
        match rest' with
        | [] => (.range lo lo, rest)
        | hi :: rest'' =>
            if x = '-'.toUInt8 ∧ hi ≠ ']'.toUInt8 then (.range lo hi, rest'')
            else (.range lo lo, rest)

theorem readMember_length (lo : UInt8) (rest : List UInt8) :
    (readMember lo rest).2.length ≤ rest.length := by
  unfold readMember
  repeat' split
  all_goals simp <;> omega

/-- The loop of `match_bracket_class`; `none` is the early `return false`, which
leaves `out_ep` alone. -/
def bracketLoop (ct : Ctype) (c : UInt8) (found : Bool) :
    List UInt8 → Except Failure (Option (Bool × List UInt8))
  | [] => .ok none
  | lo :: rest =>
      let found := found || (readMember lo rest).1.holds ct c
      match _h : (readMember lo rest).2 with
      | [] => .error .missingBracket
      | x :: rest' =>
          if x = ']'.toUInt8 then .ok (some (found, rest'))
          else bracketLoop ct c found (x :: rest')
  termination_by p => p.length
  decreasing_by
    have := readMember_length lo rest
    rw [_h] at this
    simp only [List.length_cons] at this ⊢
    omega

/-- `match_bracket_class` on the text behind the `[`. -/
def matchBracketClass (ct : Ctype) (c : UInt8) (p : List UInt8) :
    Except Failure (Bool × Option (List UInt8)) := do
  let negate := p.head? = some '^'.toUInt8
  match ← bracketLoop ct c false (if negate then p.tail else p) with
  | none => return (false, none)
  | some (found, ep) => return (if negate then !found else found, some ep)

/-- Whether the character at `si` matches the item at the start of the text. -/
def singleMatch (ct : Ctype) (s : List UInt8) (si : Nat) :
    List UInt8 → Except Failure Bool
  | [] => .ok false
  | p0 :: rest =>
      if p0 = '.'.toUInt8 then .ok (si < s.length)
      else if p0 = '%'.toUInt8 then
        match rest, s[si]? with
        | [], _ => .ok false
        | _ :: _, none => .ok false
        | clas :: _, some c => .ok (matchClass ct c clas)
      else if p0 = '['.toUInt8 then
        match s[si]? with
        | none => do
            let _ ← matchBracketClass ct 0 rest
            return false
        | some c => do return (← matchBracketClass ct c rest).1
      else .ok (s[si]? = some p0)

theorem singleMatch_lt {ct : Ctype} {s : List UInt8} {si : Nat} {p : List UInt8}
    (h : singleMatch ct s si p = .ok true) : si < s.length := by
  by_contra hle
  have hnone : s[si]? = none := List.getElem?_eq_none (Nat.le_of_not_lt hle)
  cases p with
  | nil => simp [singleMatch] at h
  | cons p0 rest =>
      simp only [singleMatch, hnone] at h
      split at h
      · have : si < s.length := by simpa using h
        omega
      · split at h
        · cases rest <;> simp at h
        · split at h
          · cases hb : matchBracketClass ct 0 rest <;> simp [hb, bind, Except.bind, pure,
              Except.pure] at h
          · simp at h

/-- The loop of `class_end`: the text behind the `]` that closes the set. -/
def classEndLoop : List UInt8 → Except Failure (List UInt8)
  | [] => .error .missingBracket
  | x :: rest =>
      match _h : if x = '%'.toUInt8 then rest.tail else rest with
      | [] => .error .missingBracket
      | y :: rest' =>
          if y = ']'.toUInt8 then .ok rest' else classEndLoop (y :: rest')
  termination_by p => p.length
  decreasing_by
    have : (y :: rest').length ≤ rest.length := by
      rw [← _h]
      split <;> simp
    simp only [List.length_cons] at this ⊢
    omega

def classEnd (p0 : UInt8) (rest : List UInt8) : Except Failure (List UInt8) :=
  if p0 = '%'.toUInt8 then
    match rest with
    | [] => .error .endsWithEscape
    | _ :: rest' => .ok rest'
  else if p0 = '['.toUInt8 then
    classEndLoop (if rest.head? = some '^'.toUInt8 then rest.tail else rest)
  else .ok rest

/-! ## What calls `match` again -/

/-- A call of `match` at a state, an index of the subject and a place of the
pattern. -/
abbrev Matcher := MatchState → Nat → List UInt8 → Except Failure (Bool × MatchState)

section Calls

variable (ct : Ctype) (s : List UInt8) (rematch : Matcher)

/-- The first loop of `max_expand`. -/
def countMatches (p : List UInt8) (si : Nat) : Except Failure Nat :=
  match _h : singleMatch ct s si p with
  | .error e => .error e
  | .ok false => .ok 0
  | .ok true => (countMatches p (si + 1)).map (· + 1)
  termination_by s.length - si
  decreasing_by
    have := singleMatch_lt _h
    omega

/-- The second loop of `max_expand`, which has come down to `i`. -/
def expandDown (ms : MatchState) (si : Nat) (ep : List UInt8) :
    Nat → Except Failure (Bool × MatchState)
  | 0 => rematch ms si ep
  | i + 1 => do
      let (ok, ms) ← rematch ms (si + (i + 1)) ep
      if ok then return (true, ms)
      expandDown ms si ep i

def maxExpand (ms : MatchState) (si : Nat) (p ep : List UInt8) :
    Except Failure (Bool × MatchState) := do
  expandDown rematch ms si ep (← countMatches ct s p si)

def minExpand (ms : MatchState) (si : Nat) (p ep : List UInt8) :
    Except Failure (Bool × MatchState) := do
  let (ok, ms) ← rematch ms si ep
  if ok then return (true, ms)
  match _h : singleMatch ct s si p with
  | .error e => .error e
  | .ok false => return (false, ms)
  | .ok true => minExpand ms (si + 1) p ep
  termination_by s.length - si
  decreasing_by
    have := singleMatch_lt _h
    omega

def startCapture (ms : MatchState) (si : Nat) (p : List UInt8) (position : Bool) :
    Except Failure (Bool × MatchState) := do
  let capture := (si, if position then CapEnd.position else .unfinished)
  let (ok, ms) ← rematch { ms with captures := ms.captures ++ [capture] } si p
  if ok then return (true, ms)
  return (false, { ms with captures := ms.captures.dropLast })

/-- The loop of `end_capture`, down from the last of `n` captures. -/
def lastUnfinished (captures : Captures) : Nat → Option Nat
  | 0 => none
  | i + 1 =>
      if captures[i]?.map Prod.snd = some .unfinished then some i
      else lastUnfinished captures i

def setEnd (captures : Captures) (i : Nat) (e : CapEnd) : Captures :=
  captures.modify i fun c => (c.1, e)

def endCapture (ms : MatchState) (si : Nat) (p : List UInt8) :
    Except Failure (Bool × MatchState) := do
  match lastUnfinished ms.captures ms.captures.length with
  | none => throw .invalidCapture
  | some i =>
      let (ok, ms) ←
        rematch { ms with captures := setEnd ms.captures i (.closed si) } si p
      if ok then return (true, ms)
      return (false, { ms with captures := setEnd ms.captures i .unfinished })

/-- Where the subject goes on after the text of capture `cap`, or `none` when
that text does not stand at `si`. -/
def matchCapture (ms : MatchState) (si cap : Nat) : Except Failure (Option Nat) :=
  match ms.captures[cap]? with
  | some (a, .closed b) =>
      let len := b - a
      if si + len > s.length then .ok none
      else if (s.drop si).take len = (s.drop a).take len then .ok (some (si + len))
      else .ok none
  | _ => .error (.invalidCaptureIndex (cap + 1))

/-- The loop of `match_balance` over the rest of the subject, from index `j`. -/
def balanceLoop (opn cls : UInt8) : List UInt8 → Int32 → Nat → Option Nat
  | [], _, _ => none
  | c :: rest, depth, j =>
      if c = cls then
        if depth - 1 = 0 then some (j + 1) else balanceLoop opn cls rest (depth - 1) (j + 1)
      else if c = opn then balanceLoop opn cls rest (depth + 1) (j + 1)
      else balanceLoop opn cls rest depth (j + 1)

def matchBalance (ms : MatchState) (si : Nat) :
    List UInt8 → Except Failure (Bool × MatchState)
  | opn :: cls :: p =>
      if s[si]? ≠ some opn then .ok (false, ms)
      else
        match balanceLoop opn cls (s.drop (si + 1)) 1 (si + 1) with
        | none => .ok (false, ms)
        | some j => rematch ms j p
  | _ => .error .missingBalanceArgs

def previousChar (si : Nat) : Except Failure UInt8 :=
  if si = 0 then .ok 0
  else
    match s[si - 1]? with
    | none => .error .readPastEnd
    | some c => .ok c

/-! ## `match` -/

/-- How one pass through the body of `match` ends. -/
inductive Jump where
  | ret (ok : Bool) (ms : MatchState)
  | init (si : Nat) (p : List UInt8)

def Jump.returning (r : Except Failure (Bool × MatchState)) : Except Failure Jump :=
  r.map fun (ok, ms) => .ret ok ms

/-- What follows the `switch` of `match`: a single item and what repeats it. -/
def matchItem (ms : MatchState) (si : Nat) (p0 : UInt8) (rest : List UInt8) :
    Except Failure Jump := do
  let p := p0 :: rest
  let ep ← classEnd p0 rest
  let nextp := ep.head?.getD 0
  if nextp = '*'.toUInt8 then Jump.returning (maxExpand ct s rematch ms si p ep.tail)
  else if nextp = '+'.toUInt8 then
    if ← singleMatch ct s si p then
      Jump.returning (maxExpand ct s rematch ms (si + 1) p ep.tail)
    else return .ret false ms
  else if nextp = '-'.toUInt8 then Jump.returning (minExpand ct s rematch ms si p ep.tail)
  else if nextp = '?'.toUInt8 then
    if ← singleMatch ct s si p then
      let (ok, ms) ← rematch ms (si + 1) ep.tail
      if ok then return .ret true ms
      Jump.returning (rematch ms si ep.tail)
    else Jump.returning (rematch ms si ep.tail)
  else if ← singleMatch ct s si p then return .init (si + 1) ep
  else return .ret false ms

def matchFrontier (ms : MatchState) (si : Nat) (rest : List UInt8) :
    Except Failure Jump := do
  if rest.head? ≠ some '['.toUInt8 then throw .missingFrontierSet
  let previous ← previousChar s si
  let current := s[si]?.getD 0
  let (prevIn, _) ← matchBracketClass ct previous rest.tail
  let (curIn, ep) ← matchBracketClass ct current rest.tail
  if prevIn || !curIn then return .ret false ms
  return .init si (ep.getD [])

def matchEscape (ms : MatchState) (si : Nat) : List UInt8 → Except Failure Jump
  | [] => .error .endsWithEscape
  | spec :: rest =>
      if spec = 'b'.toUInt8 then Jump.returning (matchBalance s rematch ms si rest)
      else if spec = 'f'.toUInt8 then matchFrontier ct s ms si rest
      else if '1'.toUInt8 ≤ spec ∧ spec ≤ '9'.toUInt8 then do
        match ← matchCapture s ms si (spec - '1'.toUInt8).toNat with
        | none => return .ret false ms
        | some si => return .init si rest
      else if spec = '0'.toUInt8 then .error (.invalidCaptureIndex 0)
      else matchItem ct s rematch ms si '%'.toUInt8 (spec :: rest)

/-- The body of `match` between `init` and the next `goto init` or `return`. -/
def matchStep (ms : MatchState) (si : Nat) : List UInt8 → Except Failure Jump
  | [] => .ok (.ret true { ms with matchEnd := si })
  | p0 :: rest =>
      if p0 = '('.toUInt8 then
        if rest.head? = some ')'.toUInt8 then
          Jump.returning (startCapture rematch ms si rest.tail true)
        else Jump.returning (startCapture rematch ms si rest false)
      else if p0 = ')'.toUInt8 then Jump.returning (endCapture rematch ms si rest)
      else if p0 = '$'.toUInt8 ∧ rest = [] then
        if s.length ≤ si then .ok (.ret true { ms with matchEnd := si })
        else .ok (.ret false ms)
      else if p0 = '%'.toUInt8 then matchEscape ct s rematch ms si rest
      else matchItem ct s rematch ms si p0 rest

/-! The text gets shorter with every `goto init`. -/

theorem bracketLoop_length {c : UInt8} {found hit : Bool} {p ep : List UInt8}
    (h : bracketLoop ct c found p = .ok (some (hit, ep))) : ep.length ≤ p.length := by
  fun_induction bracketLoop ct c found p with
  | case1 => cases h
  | case2 => cases h
  | case3 found lo rest _ rest' hrest =>
      have hlen := readMember_length lo rest
      rw [hrest] at hlen
      obtain ⟨-, rfl⟩ := Prod.mk.inj (Option.some.inj (Except.ok.inj h))
      simp only [List.length_cons] at hlen ⊢
      omega
  | case4 found lo rest _ x rest' hrest hx ih =>
      have hlen := readMember_length lo rest
      rw [hrest] at hlen
      have := ih h
      simp only [List.length_cons] at hlen this ⊢
      omega

theorem matchBracketClass_length {c : UInt8} {hit : Bool} {p ep : List UInt8}
    (h : matchBracketClass ct c p = .ok (hit, some ep)) : ep.length ≤ p.length := by
  obtain ⟨r, hr, h⟩ := StateFrame.except_bind_ok.mp h
  cases r with
  | none => cases h
  | some r =>
      cases h
      refine (bracketLoop_length ct hr).trans ?_
      split <;> simp

theorem classEndLoop_length {p ep : List UInt8} (h : classEndLoop p = .ok ep) :
    ep.length ≤ p.length := by
  fun_induction classEndLoop p with
  | case1 => cases h
  | case2 => cases h
  | case3 x rest rest' hrest =>
      have hlen : (']'.toUInt8 :: rest').length ≤ rest.length := by
        rw [← hrest]
        split <;> simp
      cases h
      simp only [List.length_cons] at hlen ⊢
      omega
  | case4 x rest y rest' hrest hy ih =>
      have hlen : (y :: rest').length ≤ rest.length := by
        rw [← hrest]
        split <;> simp
      have := ih h
      simp only [List.length_cons] at hlen this ⊢
      omega

theorem classEnd_length {p0 : UInt8} {rest ep : List UInt8}
    (h : classEnd p0 rest = .ok ep) : ep.length ≤ rest.length := by
  unfold classEnd at h
  split at h
  · split at h
    · cases h
    · cases h
      simp
  · split at h
    · refine (classEndLoop_length h).trans ?_
      split <;> simp
    · cases h
      exact le_rfl

theorem Jump.returning_ne_init {r : Except Failure (Bool × MatchState)} {si : Nat}
    {p : List UInt8} : Jump.returning r ≠ .ok (.init si p) := by
  cases r <;> simp [Jump.returning, Except.map]

theorem matchItem_length {ms : MatchState} {si si' : Nat} {p0 : UInt8}
    {rest p' : List UInt8}
    (h : matchItem ct s rematch ms si p0 rest = .ok (.init si' p')) :
    p'.length ≤ rest.length := by
  obtain ⟨ep, hep, h⟩ := StateFrame.except_bind_ok.mp h
  simp only at h
  split_ifs at h
  · exact absurd h Jump.returning_ne_init
  · obtain ⟨_ | _, _, h⟩ := StateFrame.except_bind_ok.mp h
    · cases h
    · exact absurd h Jump.returning_ne_init
  · exact absurd h Jump.returning_ne_init
  · obtain ⟨_ | _, _, h⟩ := StateFrame.except_bind_ok.mp h
    · exact absurd h Jump.returning_ne_init
    · obtain ⟨⟨_ | _, _⟩, _, h⟩ := StateFrame.except_bind_ok.mp h
      · exact absurd h Jump.returning_ne_init
      · cases h
  · obtain ⟨_ | _, _, h⟩ := StateFrame.except_bind_ok.mp h
    · cases h
    · cases h
      exact classEnd_length hep

theorem matchFrontier_length {ms : MatchState} {si si' : Nat} {rest p' : List UInt8}
    (h : matchFrontier ct s ms si rest = .ok (.init si' p')) :
    p'.length ≤ rest.length := by
  unfold matchFrontier at h
  split_ifs at h
  · cases h
  · obtain ⟨previous, _, h⟩ := StateFrame.except_bind_ok.mp h
    obtain ⟨⟨prevIn, _⟩, _, h⟩ := StateFrame.except_bind_ok.mp h
    obtain ⟨⟨curIn, ep⟩, hcur, h⟩ := StateFrame.except_bind_ok.mp h
    simp only at h
    split_ifs at h
    · cases h
    · cases h
      cases ep with
      | none => exact Nat.zero_le _
      | some ep =>
          refine (matchBracketClass_length ct hcur).trans ?_
          simp

theorem matchEscape_length {ms : MatchState} {si si' : Nat} {rest p' : List UInt8}
    (h : matchEscape ct s rematch ms si rest = .ok (.init si' p')) :
    p'.length ≤ rest.length := by
  cases rest with
  | nil => cases h
  | cons spec rest =>
      rw [List.length_cons]
      simp only [matchEscape] at h
      split_ifs at h
      · exact absurd h Jump.returning_ne_init
      · exact (matchFrontier_length ct s h).trans (Nat.le_succ _)
      · obtain ⟨_ | si', _, h⟩ := StateFrame.except_bind_ok.mp h
        · cases h
        · cases h
          exact Nat.le_succ _
      · exact matchItem_length ct s rematch h

theorem matchStep_length {ms : MatchState} {si si' : Nat} {p p' : List UInt8}
    (h : matchStep ct s rematch ms si p = .ok (.init si' p')) : p'.length < p.length := by
  cases p with
  | nil => cases h
  | cons p0 rest =>
      rw [List.length_cons, Nat.lt_succ_iff]
      simp only [matchStep] at h
      split_ifs at h
      · exact absurd h Jump.returning_ne_init
      · exact absurd h Jump.returning_ne_init
      · exact absurd h Jump.returning_ne_init
      · cases h
      · cases h
      · exact matchEscape_length ct s rematch h
      · exact matchItem_length ct s rematch h

def matchLoop (ms : MatchState) (si : Nat) (p : List UInt8) :
    Except Failure (Bool × MatchState) :=
  match _h : matchStep ct s rematch ms si p with
  | .error e => .error e
  | .ok (.ret ok ms) => .ok (ok, ms)
  | .ok (.init si p) => matchLoop ms si p
  termination_by p.length
  decreasing_by exact matchStep_length ct s rematch _h

end Calls

/-- A call under a `MatchDepthGuard`, which counts it down and up again behind it. -/
def matchDepthGuard (body : Matcher) : Matcher := fun ms si p => do
  if ms.matchdepth = 0 then throw .tooComplex
  let (ok, ms) ← body { ms with matchdepth := ms.matchdepth - 1 } si p
  return (ok, { ms with matchdepth := ms.matchdepth + 1 })

/-- `match` with a budget of calls below each other, which lasts as long as the counter
where both start at `kMaxMatchDepth`. -/
def matchAt (ct : Ctype) (s : List UInt8) : Nat → Matcher
  | 0 => fun _ _ _ => .error .tooComplex
  | budget + 1 => matchDepthGuard (matchLoop ct s (matchAt ct s budget))

end Luatier.Pattern
