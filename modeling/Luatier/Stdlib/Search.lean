import Luatier.Stdlib.PatternSets

/-!
# Searching a subject

`string.find`, `string.match` and the iterator of `string.gmatch`.  Positions are
indices from 0 on until they are pushed.  A start may stand behind the subject:
then a search has nowhere to look, but an anchored pattern is tried there all the
same.
-/

namespace Luatier.Pattern

/-! ## Texts of the subject -/

/-- How a function of the library fails: in `match`, in taking a capture, or in a
`substr` that starts behind the subject. -/
inductive Fault where
  | pattern (e : Failure)
  | unfinishedCapture
  | outOfRange
  deriving DecidableEq, Repr

def Fault.message : Fault → Option String
  | pattern e => e.message
  | unfinishedCapture => some "unfinished capture"
  | outOfRange => none

inductive Result where
  | nil
  | integer (n : Nat)
  | string (b : List UInt8)
  deriving DecidableEq, Repr

/-- `string_view::substr`. -/
def substr (s : List UInt8) (pos n : Nat) : Except Fault (List UInt8) :=
  if s.length < pos then .error .outOfRange else .ok ((s.drop pos).take n)

/-- `capture_string` of one capture. -/
def captureString (s : List UInt8) (c : Nat × CapEnd) : Except Fault (List UInt8) :=
  match c with
  | (a, .position) => .ok (bytes (Nat.toDigits 10 (a + 1)))
  | (_, .unfinished) => .error .unfinishedCapture
  | (a, .closed b) => if b < a then .ok [] else substr s a (b - a)

def pushCapture (s : List UInt8) (c : Nat × CapEnd) : Except Fault Result :=
  if c.2 = .position then .ok (.integer (c.1 + 1)) else (captureString s c).map .string

/-- The captures of a match from `i` on, or the whole match when it has none. -/
def pushMatch (s : List UInt8) (i : Nat) (ms : MatchState) : Except Fault (List Result) :=
  if ms.captures = [] then (substr s i (ms.matchEnd - i)).map fun b => [.string b]
  else ms.captures.mapM (pushCapture s)

/-! ## The searches -/

/-- A match and the index at which it starts. -/
abbrev Located := Nat × MatchState

section Searches

variable (ct : Ctype) (s p : List UInt8)

/-- The loop of `match_search`, at `i`. -/
def searchLoop (anchor : Bool) (last : Nat) (ms : MatchState) (i : Nat) :
    Except Failure (Option Located) :=
  if i ≤ last then do
    let (ok, ms) ← matchAt ct s kMaxMatchDepth { ms with captures := [] } i p
    if ok then return some (i, ms)
    if anchor then return none
    searchLoop anchor last ms (i + 1)
  else return none
  termination_by last + 1 - i

def matchSearch (start : Nat) (anchor : Bool) : Except Failure (Option Located) :=
  if p.head? = some '^'.toUInt8 then searchLoop ct s p.tail true start {} start
  else searchLoop ct s p anchor (if anchor then start else s.length) {} start

def initStart (init : Int) : Nat :=
  let init := if init < 0 then (s.length : Int) + init + 1 else init
  (max 1 init - 1).toNat

/-- `string_view::find`: the first place from `start` on where `p` stands. -/
def findLiteral (start : Nat) : Option Nat :=
  (List.range (s.length + 1)).find? fun pos => start ≤ pos ∧ p <+: s.drop pos

def strFind (init : Option Int) (plain : Bool) : Except Fault (List Result) :=
  let start := initStart s (init.getD 1)
  if plain then
    match findLiteral s p start with
    | none => .ok [.nil]
    | some pos => .ok [.integer (pos + 1), .integer (pos + p.length)]
  else
    match matchSearch ct s p start false with
    | .error e => .error (.pattern e)
    | .ok none => .ok [.nil]
    | .ok (some (i, ms)) => do
        let captures ← ms.captures.mapM (pushCapture s)
        return .integer (i + 1) :: .integer ms.matchEnd :: captures

def strMatch (init : Option Int) : Except Fault (List Result) :=
  match matchSearch ct s p (initStart s (init.getD 1)) false with
  | .error e => .error (.pattern e)
  | .ok none => .ok [.nil]
  | .ok (some (i, ms)) => pushMatch s i ms

/-- The upvalues of the iterator that change: where it goes on, and the end of the
match before.  No subject is so long that a place of it would not go through a
double. -/
structure GmatchState where
  src : Nat := 0
  lastmatch : Option Nat := none
  deriving DecidableEq, Repr

/-- The loop of `gmatch_iter` up to a match that it takes. -/
def gmatchLoop (lastmatch : Option Nat) (src : Nat) : Except Failure (Option Located) :=
  if src ≤ s.length then do
    let (ok, ms) ← matchAt ct s kMaxMatchDepth {} src p
    if ok ∧ some ms.matchEnd ≠ lastmatch then return some (src, ms)
    gmatchLoop lastmatch (src + 1)
  else return none
  termination_by s.length + 1 - src

/-- One call of the iterator.  It has moved on before it pushes what it found. -/
def gmatchIter (st : GmatchState) : GmatchState × Except Fault (List Result) :=
  match gmatchLoop ct s p st.lastmatch st.src with
  | .error e => (st, .error (.pattern e))
  | .ok none => (st, .ok [.nil])
  | .ok (some (src, ms)) => (⟨ms.matchEnd, some ms.matchEnd⟩, pushMatch s src ms)

def gmatchAfter (st : GmatchState) : Nat → GmatchState
  | 0 => st
  | n + 1 => gmatchAfter (gmatchIter ct s p st).1 n

end Searches

/-! ## A match stays in the subject -/

variable {ct : Ctype} {s p : List UInt8}

structure MatchIn (s : List UInt8) (i : Nat) (ms : MatchState) : Prop where
  forward : i ≤ ms.matchEnd
  inside : ms.matchEnd ≤ s.length
  starts : StartFrom i ms.captures
  captures : Ordered ms.matchEnd ms.captures

theorem matchAt_true {i : Nat} {ms ms' : MatchState} (hms : ms.captures = [])
    (hi : i ≤ s.length) (h : matchAt ct s kMaxMatchDepth ms i p = .ok (true, ms')) :
    MatchIn s i ms' := by
  have hfinds := matchAt_correct ct s kMaxMatchDepth ms.matchdepth p ms i rfl
  rw [h, hms] at hfinds
  have hmem := List.mem_of_head? hfinds.of_success
  have hord := outcomes_ordered (endsIn_counted s) hmem (by simp [Ordered])
  have hin := outcomes_inside (endsIn_counted s) hmem le_rfl hi (by simp [StartFrom])
    (by simp [Ordered])
  exact ⟨hord.1, hin.1, hin.2, hord.2⟩

theorem matchAt_false {i : Nat} {ms ms' : MatchState}
    (h : matchAt ct s kMaxMatchDepth ms i p = .ok (false, ms')) : ms' = ms := by
  have hfinds := matchAt_correct ct s kMaxMatchDepth ms.matchdepth p ms i rfl
  rw [h] at hfinds
  exact hfinds.of_failure.2

theorem matchAt_error {i : Nat} {ms : MatchState} {err : Failure} (hms : ms.captures = [])
    (hi : i ≤ s.length) (h : matchAt ct s kMaxMatchDepth ms i p = .error err) :
    err ≠ .readPastEnd := by
  have hfinds := matchAt_correct ct s kMaxMatchDepth ms.matchdepth p ms i rfl
  rw [h, hms] at hfinds
  obtain ⟨e, he, rfl⟩ := hfinds.of_error
  have hreads := outcomes_error (endsIn_counted s) (fun _ _ _ => Option.some_ne_none _)
    (parse_reads p) (List.mem_of_head? he) hi (by simp [Ordered])
  exact fun hpast => hreads.2 (congrArg some hpast)

/-! ## What the searches find -/

variable {anchor : Bool} {lastmatch : Option Nat} {start last i : Nat} {ms : MatchState}

/-- A search from `start` on finds a match that lies in the subject, nothing, or an
error in the pattern. -/
def SearchIn (s : List UInt8) (start : Nat) : Except Failure (Option Located) → Prop
  | .error e => e ≠ .readPastEnd
  | .ok none => True
  | .ok (some (i, ms)) => start ≤ i ∧ MatchIn s i ms

@[simp]
theorem searchIn_error {e : Failure} : SearchIn s start (.error e) ↔ e ≠ .readPastEnd := Iff.rfl

@[simp]
theorem searchIn_some :
    SearchIn s start (.ok (some (i, ms))) ↔ start ≤ i ∧ MatchIn s i ms := Iff.rfl

theorem SearchIn.mono {r : Except Failure (Option Located)} {start' : Nat}
    (h : SearchIn s start' r) (hle : start ≤ start') : SearchIn s start r := by
  rcases r with e | _ | ⟨i, ms⟩
  · exact h
  · trivial
  · exact ⟨hle.trans h.1, h.2⟩

theorem searchLoop_in (hlast : last ≤ s.length) :
    SearchIn s start (searchLoop ct s p anchor last ms start) := by
  induction hn : last + 1 - start using Nat.strongRecOn generalizing start ms with
  | ind n ih =>
      rw [searchLoop]
      split
      · rename_i hle
        cases hr : matchAt ct s kMaxMatchDepth { ms with captures := [] } start p with
        | error e => exact matchAt_error rfl (hle.trans hlast) hr
        | ok found =>
            rcases found with ⟨_ | _, ms'⟩
            · cases anchor with
              | true => trivial
              | false => exact (ih _ (by omega) rfl).mono (Nat.le_succ start)
            · exact ⟨le_rfl, matchAt_true rfl (hle.trans hlast) hr⟩
      · trivial

theorem matchSearch_behind (h : s.length < start) :
    matchSearch ct s p start false =
      if p.head? = some '^'.toUInt8 then
        (matchAt ct s kMaxMatchDepth {} start p.tail).map fun (ok, ms) =>
          if ok then some (start, ms) else none
      else .ok none := by
  simp only [matchSearch]
  split
  · rw [searchLoop]
    rcases matchAt ct s kMaxMatchDepth {} start p.tail with e | ⟨_ | _, ms⟩ <;>
      simp [bind, Except.bind, Except.map, pure, Except.pure]
  · rw [searchLoop]
    simp [Nat.not_le.mpr h, pure, Except.pure]

theorem matchSearch_in (h : start ≤ s.length) :
    SearchIn s start (matchSearch ct s p start false) := by
  simp only [matchSearch]
  split
  · exact searchLoop_in h
  · exact searchLoop_in le_rfl

theorem gmatchLoop_in : SearchIn s start (gmatchLoop ct s p lastmatch start) := by
  induction hn : s.length + 1 - start using Nat.strongRecOn generalizing start with
  | ind n ih =>
      rw [gmatchLoop]
      split
      · rename_i hle
        have hnext : SearchIn s (start + 1) (gmatchLoop ct s p lastmatch (start + 1)) :=
          ih _ (by omega) rfl
        have hrest := hnext.mono (Nat.le_succ start)
        cases hr : matchAt ct s kMaxMatchDepth {} start p with
        | error e => exact matchAt_error rfl hle hr
        | ok found =>
            rcases found with ⟨_ | _, ms⟩
            · exact hrest
            · by_cases he : some ms.matchEnd = lastmatch
              · simpa [bind, Except.bind, he] using hrest
              · simpa [bind, Except.bind, he] using ⟨le_rfl, matchAt_true rfl hle hr⟩
      · trivial

/-! ## What is pushed -/

def TakenFrom (s : List UInt8) (start : Nat) : Result → Prop
  | .nil => False
  | .integer n => start + 1 ≤ n ∧ n ≤ s.length + 1
  | .string b => b <:+: s.drop start

def PushIn (s : List UInt8) (start : Nat) : Except Fault (List Result) → Prop
  | .error e => e = .unfinishedCapture
  | .ok rs => ∀ r ∈ rs, TakenFrom s start r

@[simp]
theorem pushIn_error {e : Fault} : PushIn s start (.error e) ↔ e = .unfinishedCapture := Iff.rfl

theorem substr_in {a n : Nat} (hstart : start ≤ a) (ha : a ≤ s.length) :
    ∃ b, substr s a n = .ok b ∧ b <:+: s.drop start := by
  refine ⟨(s.drop a).take n, by simp [substr, ha], ?_⟩
  obtain ⟨k, rfl⟩ := Nat.exists_eq_add_of_le hstart
  rw [← List.drop_drop]
  exact (List.take_prefix _ _).isInfix.trans (List.drop_suffix _ _).isInfix

theorem pushCapture_in {c : Nat × CapEnd} (h : MatchIn s i ms) (hstart : start ≤ i)
    (hc : c ∈ ms.captures) :
    pushCapture s c = .error .unfinishedCapture ∨
      ∃ r, pushCapture s c = .ok r ∧ TakenFrom s start r := by
  have hfrom := hstart.trans (h.starts c hc)
  have hto := h.captures c hc
  have hin := h.inside
  obtain ⟨a, e⟩ := c
  cases e with
  | unfinished => exact .inl rfl
  | position =>
      right
      simp only at hfrom hto
      exact ⟨.integer (a + 1), rfl, by simp only [TakenFrom]; omega⟩
  | closed e =>
      right
      have hae := (hto.2 e rfl).1
      obtain ⟨b, hb, htaken⟩ := substr_in (n := e - a) hfrom (hto.1.trans hin)
      exact ⟨.string b, by simp [pushCapture, captureString, hb, Except.map, Nat.not_lt.mpr hae],
        htaken⟩

theorem pushCaptures_in (h : MatchIn s i ms) (hstart : start ≤ i) {cs : Captures}
    (hcs : ∀ c ∈ cs, c ∈ ms.captures) : PushIn s start (cs.mapM (pushCapture s)) := by
  induction cs with
  | nil => simp [PushIn, pure, Except.pure]
  | cons c cs ih =>
      have htail := ih fun d hd => hcs d (List.mem_cons_of_mem c hd)
      rw [List.mapM_cons]
      rcases pushCapture_in h hstart (hcs c List.mem_cons_self) with hc | ⟨r, hc, hr⟩
      · simp [hc, bind, Except.bind, PushIn]
      · cases hrest : cs.mapM (pushCapture s) with
        | error e =>
            rw [hrest] at htail
            simpa [hc, bind, Except.bind, PushIn] using htail
        | ok rs =>
            rw [hrest] at htail
            simpa [hc, bind, Except.bind, pure, Except.pure, PushIn] using ⟨hr, htail⟩

theorem pushMatch_in (h : MatchIn s i ms) (hstart : start ≤ i) :
    PushIn s start (pushMatch s i ms) := by
  simp only [pushMatch]
  split
  · obtain ⟨b, hb, htaken⟩ := substr_in (n := ms.matchEnd - i) hstart (h.forward.trans h.inside)
    simpa [hb, Except.map, PushIn, TakenFrom] using htaken
  · exact pushCaptures_in h hstart fun _ => id

theorem pushCapture_ne_nil (c : Nat × CapEnd) : pushCapture s c ≠ .ok .nil := by
  simp only [pushCapture]
  split
  · simp
  · cases captureString s c <;> simp [Except.map]

theorem pushMatch_ne_nil : pushMatch s i ms ≠ .ok [.nil] := by
  simp only [pushMatch]
  split
  · cases substr s i (ms.matchEnd - i) <;> simp [Except.map]
  · rcases ms.captures with _ | ⟨c, cs⟩
    · simp [pure, Except.pure]
    · have hc := pushCapture_ne_nil (s := s) c
      rw [List.mapM_cons]
      cases hpush : pushCapture s c with
      | error e => simp [bind, Except.bind]
      | ok r => cases cs.mapM (pushCapture s) <;> simp_all [bind, Except.bind, pure, Except.pure]

/-! ## Where the functions find what they report -/

def OccursAt (s p : List UInt8) (pos : Nat) : Prop := pos ≤ s.length ∧ p <+: s.drop pos

/-- Nothing is read or taken outside the subject, and a start behind it gives `nil`. -/
structure InSubject (s : List UInt8) (start : Nat) (r : Except Fault (List Result)) : Prop where
  behind : s.length < start → r = .ok [.nil]
  reads : r ≠ .error (.pattern .readPastEnd)
  takes : r ≠ .error .outOfRange

/-- A success of `string.find` reports a place from `start` on, and a plain one the
first place where `p` stands. -/
structure FindLocated (s p : List UInt8) (start : Nat) (plain : Bool)
    (r : Except Fault (List Result)) : Prop extends InSubject s start r where
  found : ∀ rs, r = .ok rs → rs = [.nil] ∨
    ∃ a b captures, rs = .integer a :: .integer b :: captures ∧
      start + 1 ≤ a ∧ a ≤ b + 1 ∧ b ≤ s.length ∧ ∀ x ∈ captures, TakenFrom s start x
  literal : plain = true →
    (r = .ok [.nil] ∧ ∀ pos, start ≤ pos → ¬ OccursAt s p pos) ∨
    ∃ pos, r = .ok [.integer (pos + 1), .integer (pos + p.length)] ∧ start ≤ pos ∧
      OccursAt s p pos ∧ ∀ pos', start ≤ pos' → pos' < pos → ¬ OccursAt s p pos'

/-- A success of `string.match`, or of an iterator that goes on at `start`, takes its
results from there on. -/
structure MatchLocated (s : List UInt8) (start : Nat) (r : Except Fault (List Result)) : Prop
    extends InSubject s start r where
  taken : ∀ rs, r = .ok rs → rs = [.nil] ∨ ∀ x ∈ rs, TakenFrom s start x

/-- No anchored pattern is tried behind the subject, or it does not match there. -/
def TriedInside (ct : Ctype) (s p : List UInt8) (start : Nat) : Prop :=
  start ≤ s.length ∨ p.head? ≠ some '^'.toUInt8 ∨
    matchAt ct s kMaxMatchDepth {} start p.tail = .ok (false, {})

/-- What a search that stays inside finds is reported; behind the subject, that is
nothing. -/
theorem matchSearch_tried (h : TriedInside ct s p start) :
    SearchIn s start (matchSearch ct s p start false) ∧
      (s.length < start → matchSearch ct s p start false = .ok none) := by
  by_cases hin : start ≤ s.length
  · exact ⟨matchSearch_in hin, fun hlt => absurd hlt (Nat.not_lt.mpr hin)⟩
  · have hnone : matchSearch ct s p start false = .ok none := by
      rw [matchSearch_behind (Nat.lt_of_not_le hin)]
      split
      · rename_i hanchor
        have htry : matchAt ct s kMaxMatchDepth {} start p.tail = .ok (false, {}) := by
          simpa [TriedInside, hin, hanchor] using h
        simp [htry, Except.map]
      · rfl
    simp [hnone, SearchIn]

theorem tried_of_nothing (h : s.length < start →
    matchSearch ct s p start false = .ok none) : TriedInside ct s p start := by
  by_cases hin : start ≤ s.length
  · exact .inl hin
  · have hnone := h (Nat.lt_of_not_le hin)
    rw [matchSearch_behind (Nat.lt_of_not_le hin)] at hnone
    split at hnone
    · right
      right
      rcases hr : matchAt ct s kMaxMatchDepth {} start p.tail with e | ⟨_ | _, ms⟩
      · simp [hr, Except.map] at hnone
      · rw [matchAt_false hr]
      · simp [hr, Except.map] at hnone
    · rename_i hanchor
      exact .inr (.inl hanchor)

theorem findLiteral_none (h : findLiteral s p start = none) {pos : Nat} (hpos : start ≤ pos) :
    ¬ OccursAt s p pos := by
  simp only [findLiteral, List.find?_eq_none, List.mem_range, decide_eq_true_eq] at h
  rintro ⟨hle, hprefix⟩
  exact h pos (Nat.lt_succ_of_le hle) ⟨hpos, hprefix⟩

theorem findLiteral_some {pos : Nat} (h : findLiteral s p start = some pos) :
    start ≤ pos ∧ OccursAt s p pos ∧
      ∀ pos', start ≤ pos' → pos' < pos → ¬ OccursAt s p pos' := by
  simp only [findLiteral, List.find?_range_eq_some, decide_eq_true_eq, List.mem_range] at h
  obtain ⟨⟨hpos, hprefix⟩, hlt, hfirst⟩ := h
  refine ⟨hpos, ⟨Nat.le_of_lt_succ hlt, hprefix⟩, fun pos' hpos' hlt' hoccurs => ?_⟩
  simpa [hpos', hoccurs.2] using hfirst pos' hlt'

theorem strFind_plain_located (init : Option Int) :
    FindLocated s p (initStart s (init.getD 1)) true (strFind ct s p init true) := by
  simp only [strFind, if_true]
  cases hfind : findLiteral s p (initStart s (init.getD 1)) with
  | none =>
      constructor
      · constructor <;> simp
      · simp
      · intro _
        exact .inl ⟨rfl, fun pos hpos => findLiteral_none hfind hpos⟩
  | some pos =>
      have hpos := findLiteral_some hfind
      have hlen : pos + p.length ≤ s.length := by
        have := hpos.2.1.2.length_le
        have := hpos.2.1.1
        simp only [List.length_drop] at *
        omega
      constructor
      · constructor
        · intro hbehind
          omega
        · simp
        · simp
      · intro rs hrs
        cases hrs
        exact .inr ⟨pos + 1, pos + p.length, [], rfl, by omega, by omega, hlen, by simp⟩
      · intro _
        exact .inr ⟨pos, rfl, hpos⟩

theorem strFind_nil_iff {init : Option Int} :
    strFind ct s p init false = .ok [.nil] ↔
      matchSearch ct s p (initStart s (init.getD 1)) false = .ok none := by
  simp only [strFind, Bool.false_eq_true, if_false]
  rcases matchSearch ct s p (initStart s (init.getD 1)) false with e | _ | ⟨i, ms⟩
  · simp
  · simp
  · cases hcs : ms.captures.mapM (pushCapture s) <;>
      simp [hcs, bind, Except.bind, pure, Except.pure]

theorem strMatch_nil_iff {init : Option Int} :
    strMatch ct s p init = .ok [.nil] ↔
      matchSearch ct s p (initStart s (init.getD 1)) false = .ok none := by
  simp only [strMatch]
  rcases matchSearch ct s p (initStart s (init.getD 1)) false with e | _ | ⟨i, ms⟩
  · simp
  · simp
  · simp [pushMatch_ne_nil]

theorem strFind_located_iff (init : Option Int) :
    FindLocated s p (initStart s (init.getD 1)) false (strFind ct s p init false) ↔
      TriedInside ct s p (initStart s (init.getD 1)) := by
  constructor
  · intro h
    exact tried_of_nothing fun hbehind => strFind_nil_iff.mp (h.behind hbehind)
  · intro h
    have hsearch := matchSearch_tried h
    have hbehind := fun hlt => strFind_nil_iff.mpr (hsearch.2 hlt)
    simp only [strFind, Bool.false_eq_true, if_false] at hbehind ⊢
    rcases hr : matchSearch ct s p (initStart s (init.getD 1)) false with e | _ | ⟨i, ms⟩
    · rw [hr, searchIn_error] at hsearch
      rw [hr] at hbehind
      exact ⟨⟨hbehind, by simpa using hsearch.1, by simp⟩, by simp, by simp⟩
    · rw [hr] at hbehind
      exact ⟨⟨hbehind, by simp, by simp⟩, by simp, by simp⟩
    · rw [hr, searchIn_some] at hsearch
      rw [hr] at hbehind
      have hin := hsearch.1.2
      have hpush := pushCaptures_in hin hsearch.1.1 fun _ => id
      cases hcs : ms.captures.mapM (pushCapture s) with
      | error e =>
          rw [hcs] at hpush
          simp only [hcs, bind, Except.bind] at hbehind ⊢
          rw [pushIn_error] at hpush
          exact ⟨⟨hbehind, by simp [hpush], by simp [hpush]⟩, by simp, by simp⟩
      | ok captures =>
          rw [hcs] at hpush
          simp only [hcs, bind, Except.bind, pure, Except.pure] at hbehind ⊢
          refine ⟨⟨hbehind, by simp, by simp⟩, ?_, by simp⟩
          intro rs hrs
          cases hrs
          exact .inr ⟨i + 1, ms.matchEnd, captures, rfl, Nat.succ_le_succ hsearch.1.1,
            Nat.succ_le_succ hin.forward, hin.inside, hpush⟩

theorem matchLocated_of_in (hsearch : start ≤ i ∧ MatchIn s i ms) :
    MatchLocated s start (pushMatch s i ms) := by
  have hpush := pushMatch_in hsearch.2 hsearch.1
  have hin : start ≤ s.length :=
    hsearch.1.trans (hsearch.2.forward.trans hsearch.2.inside)
  cases hr : pushMatch s i ms with
  | error e =>
      rw [hr, pushIn_error] at hpush
      exact ⟨⟨fun hlt => absurd hin (Nat.not_le.mpr hlt), by simp [hpush], by simp [hpush]⟩,
        by simp⟩
  | ok rs =>
      rw [hr] at hpush
      refine ⟨⟨fun hlt => absurd hin (Nat.not_le.mpr hlt), by simp, by simp⟩, ?_⟩
      intro rs' hrs
      cases hrs
      exact .inr hpush

theorem matchLocated_nil : MatchLocated s start (.ok [.nil]) :=
  ⟨⟨by simp, by simp, by simp⟩, by simp⟩

theorem strMatch_located_iff (init : Option Int) :
    MatchLocated s (initStart s (init.getD 1)) (strMatch ct s p init) ↔
      TriedInside ct s p (initStart s (init.getD 1)) := by
  constructor
  · intro h
    exact tried_of_nothing fun hbehind => strMatch_nil_iff.mp (h.behind hbehind)
  · intro h
    have hsearch := matchSearch_tried h
    have hbehind := fun hlt => strMatch_nil_iff.mpr (hsearch.2 hlt)
    simp only [strMatch] at hbehind ⊢
    rcases hr : matchSearch ct s p (initStart s (init.getD 1)) false with e | _ | ⟨i, ms⟩
    · rw [hr, searchIn_error] at hsearch
      rw [hr] at hbehind
      exact ⟨⟨hbehind, by simpa using hsearch.1, by simp⟩, by simp⟩
    · exact matchLocated_nil
    · rw [hr] at hsearch
      exact matchLocated_of_in hsearch.1

theorem gmatchIter_located {st : GmatchState} (h : st.src ≤ s.length) :
    MatchLocated s st.src (gmatchIter ct s p st).2 ∧ st.src ≤ (gmatchIter ct s p st).1.src ∧
      (gmatchIter ct s p st).1.src ≤ s.length := by
  have hsearch : SearchIn s st.src (gmatchLoop ct s p st.lastmatch st.src) := gmatchLoop_in
  simp only [gmatchIter]
  rcases hr : gmatchLoop ct s p st.lastmatch st.src with e | _ | ⟨i, ms⟩
  · rw [hr, searchIn_error] at hsearch
    exact ⟨⟨⟨fun hlt => absurd h (Nat.not_le.mpr hlt), by simpa using hsearch, by simp⟩,
      by simp⟩, le_rfl, h⟩
  · exact ⟨matchLocated_nil, le_rfl, h⟩
  · rw [hr, searchIn_some] at hsearch
    exact ⟨matchLocated_of_in hsearch, hsearch.1.trans hsearch.2.forward, hsearch.2.inside⟩

theorem gmatchAfter_inside {st : GmatchState} (h : st.src ≤ s.length) (n : Nat) :
    (gmatchAfter ct s p st n).src ≤ s.length := by
  induction n generalizing st with
  | zero => exact h
  | succ n ih => exact ih (gmatchIter_located h).2.2

/-- A plain `string.find` and the iterator of `string.gmatch` report what lies in the
subject, from the place where they start on.  So do the searches for a pattern,
exactly when no anchored pattern is tried with success or an error behind the
subject. -/
theorem searches_located_iff (ct : Ctype) (s p : List UInt8) (init : Option Int) :
    FindLocated s p (initStart s (init.getD 1)) true (strFind ct s p init true) ∧
      (FindLocated s p (initStart s (init.getD 1)) false (strFind ct s p init false) ↔
        TriedInside ct s p (initStart s (init.getD 1))) ∧
      (MatchLocated s (initStart s (init.getD 1)) (strMatch ct s p init) ↔
        TriedInside ct s p (initStart s (init.getD 1))) ∧
      ∀ n, MatchLocated s (gmatchAfter ct s p {} n).src
        (gmatchIter ct s p (gmatchAfter ct s p {} n)).2 :=
  ⟨strFind_plain_located init, strFind_located_iff init, strMatch_located_iff init,
    fun n => (gmatchIter_located (gmatchAfter_inside (Nat.zero_le _) n)).1⟩

/-- An anchor alone matches anywhere, also far behind the subject. -/
theorem anchor_found_behind_subject :
    strFind cLocale (bytes ['a', 'b', 'c']) (bytes ['^']) (some 10) false =
        .ok [.integer 10, .integer 9] ∧
      ¬ FindLocated (bytes ['a', 'b', 'c']) (bytes ['^'])
        (initStart (bytes ['a', 'b', 'c']) 10) false
        (strFind cLocale (bytes ['a', 'b', 'c']) (bytes ['^']) (some 10) false) := by
  have hfind : strFind cLocale (bytes ['a', 'b', 'c']) (bytes ['^']) (some 10) false =
      .ok [.integer 10, .integer 9] := by
    decide +kernel
  refine ⟨hfind, fun h => ?_⟩
  have hnil := h.behind (by decide)
  rw [hfind] at hnil
  simp at hnil

end Luatier.Pattern
