import Mathlib.Algebra.Group.Nat.Defs
import Luatier.Lib.Backtracking
import Luatier.Stdlib.Pattern

/-!
# What patterns mean

A pattern is a sequence of pieces.  Each piece says where it may end and with
which captures, the preferred way first, and a pattern composes its pieces.  An
error stands where a match with backtracking comes upon it.
-/

namespace Luatier.Pattern

open Backtracking

/-! ## Pieces -/

/-- A set reads members up to the `]` behind the first of them.  A range whose
upper end is `%` has no meaning in Lua, and there its members may go on behind
the `]` that `class_end` finds. -/
structure CharSet where
  negate : Bool
  members : List Member
  closed : Bool
  deriving DecidableEq, Repr

/-- What one character is matched against. -/
inductive Single where
  | any
  | clas (x : UInt8)
  | set (cs : CharSet)
  | lit (x : UInt8)
  deriving DecidableEq, Repr

inductive Piece where
  | opening
  | position
  | closing
  | atEnd
  | balance (x y : UInt8)
  | frontier (cs : CharSet)
  | backref (n : Nat)
  | one (t : Single)
  | star (t : Single)
  | plus (t : Single)
  | minus (t : Single)
  | opt (t : Single)
  | malformed (e : Failure)
  deriving DecidableEq, Repr

def readMembers : List UInt8 → List Member × Option (List UInt8)
  | [] => ([], none)
  | lo :: rest =>
      let m := (readMember lo rest).1
      match _h : (readMember lo rest).2 with
      | [] => ([m], none)
      | x :: rest' =>
          if x = ']'.toUInt8 then ([m], some rest')
          else (m :: (readMembers (x :: rest')).1, (readMembers (x :: rest')).2)
  termination_by p => p.length
  decreasing_by
    have := readMember_length lo rest
    rw [_h] at this
    simp only [List.length_cons] at this ⊢
    omega

theorem readMembers_cons (lo : UInt8) (rest : List UInt8) :
    readMembers (lo :: rest) =
      match (readMember lo rest).2 with
      | [] => ([(readMember lo rest).1], none)
      | x :: rest' =>
          if x = ']'.toUInt8 then ([(readMember lo rest).1], some rest')
          else
            ((readMember lo rest).1 :: (readMembers (x :: rest')).1,
              (readMembers (x :: rest')).2) := by
  rw [readMembers]
  split
  · rename_i h
    simp [h]
  · rename_i h
    simp [h]

def readSet (p : List UInt8) : CharSet × Option (List UInt8) :=
  let negate := p.head? = some '^'.toUInt8
  let (members, ep) := readMembers (if negate then p.tail else p)
  (⟨negate, members, ep.isSome⟩, ep)

def readSingle (p0 : UInt8) (rest : List UInt8) : Single :=
  if p0 = '.'.toUInt8 then .any
  else if p0 = '%'.toUInt8 then .clas (rest.head?.getD 0)
  else if p0 = '['.toUInt8 then .set (readSet rest).1
  else .lit p0

def readItem (p0 : UInt8) (rest : List UInt8) : Piece × List UInt8 :=
  let t := readSingle p0 rest
  match classEnd p0 rest with
  | .error e => (.malformed e, [])
  | .ok ep =>
      let nextp := ep.head?.getD 0
      if nextp = '*'.toUInt8 then (.star t, ep.tail)
      else if nextp = '+'.toUInt8 then (.plus t, ep.tail)
      else if nextp = '-'.toUInt8 then (.minus t, ep.tail)
      else if nextp = '?'.toUInt8 then (.opt t, ep.tail)
      else (.one t, ep)

def readFrontier (rest : List UInt8) : Piece × List UInt8 :=
  if rest.head? ≠ some '['.toUInt8 then (.malformed .missingFrontierSet, [])
  else ((.frontier (readSet rest.tail).1), (readSet rest.tail).2.getD [])

def readEscape (rest : List UInt8) : Piece × List UInt8 :=
  match rest with
  | [] => (.malformed .endsWithEscape, [])
  | spec :: rest' =>
      if spec = 'b'.toUInt8 then
        match rest' with
        | x :: y :: rest'' => (.balance x y, rest'')
        | _ => (.malformed .missingBalanceArgs, [])
      else if spec = 'f'.toUInt8 then readFrontier rest'
      else if '1'.toUInt8 ≤ spec ∧ spec ≤ '9'.toUInt8 then
        (.backref (spec - '1'.toUInt8).toNat, rest')
      else if spec = '0'.toUInt8 then (.malformed (.invalidCaptureIndex 0), [])
      else readItem '%'.toUInt8 rest

def readPiece (p0 : UInt8) (rest : List UInt8) : Piece × List UInt8 :=
  if p0 = '('.toUInt8 then
    if rest.head? = some ')'.toUInt8 then (.position, rest.tail) else (.opening, rest)
  else if p0 = ')'.toUInt8 then (.closing, rest)
  else if p0 = '$'.toUInt8 ∧ rest = [] then (.atEnd, [])
  else if p0 = '%'.toUInt8 then readEscape rest
  else readItem p0 rest

theorem readMembers_length {p ep : List UInt8} (h : (readMembers p).2 = some ep) :
    ep.length ≤ p.length := by
  fun_induction readMembers p with
  | case1 => cases h
  | case2 => cases h
  | case3 lo rest _ rest' hm =>
      have hlen := readMember_length lo rest
      rw [hm] at hlen
      obtain rfl := Option.some.inj h
      simp only [List.length_cons] at hlen ⊢
      omega
  | case4 lo rest _ x rest' hm hx ih =>
      have hlen := readMember_length lo rest
      rw [hm] at hlen
      have := ih h
      simp only [List.length_cons] at hlen this ⊢
      omega

theorem readItem_length (p0 : UInt8) (rest : List UInt8) :
    (readItem p0 rest).2.length ≤ rest.length := by
  unfold readItem
  cases hep : classEnd p0 rest with
  | error e => simp
  | ok ep =>
      have hlen := classEnd_length hep
      have htail : ep.tail.length ≤ rest.length := by
        rw [List.length_tail]
        omega
      simp only
      split_ifs
      all_goals assumption

theorem readFrontier_length (rest : List UInt8) :
    (readFrontier rest).2.length ≤ rest.length := by
  unfold readFrontier
  split_ifs
  · simp
  · cases hep : (readSet rest.tail).2 with
    | none => simp
    | some ep =>
        have := readMembers_length hep
        refine (this.trans ?_)
        split
        · simp
          omega
        · simp

theorem readPiece_length (p0 : UInt8) (rest : List UInt8) :
    (readPiece p0 rest).2.length ≤ rest.length := by
  unfold readPiece
  split_ifs
  · simp
  · exact le_rfl
  · exact le_rfl
  · simp
  · unfold readEscape
    split
    · simp
    · split_ifs
      · split
        all_goals
          simp
          try omega
      · exact (readFrontier_length _).trans (Nat.le_succ _)
      · simp
      · simp
      · exact readItem_length _ _
  · exact readItem_length _ _

def parse : List UInt8 → List Piece
  | [] => []
  | p0 :: rest => (readPiece p0 rest).1 :: parse (readPiece p0 rest).2
  termination_by p => p.length
  decreasing_by exact Nat.lt_succ_of_le (readPiece_length p0 rest)

theorem parse_cons (p0 : UInt8) (rest : List UInt8) :
    parse (p0 :: rest) = (readPiece p0 rest).1 :: parse (readPiece p0 rest).2 := by
  rw [parse]

/-- No text is malformed in such a way that the matcher reads behind the subject. -/
theorem classEnd_error {p0 : UInt8} {rest : List UInt8} {e : Failure}
    (h : classEnd p0 rest = .error e) : e ≠ .readPastEnd := by
  have hloop : ∀ q, classEndLoop q ≠ .error .readPastEnd := by
    intro q
    fun_induction classEndLoop q with
    | case1 => simp
    | case2 => simp
    | case3 => simp
    | case4 _ _ _ _ _ _ ih => exact ih
  rintro rfl
  simp only [classEnd] at h
  split at h
  · cases rest <;> simp at h
  · split at h
    · exact hloop _ h
    · simp at h

theorem readItem_reads (p0 : UInt8) (rest : List UInt8) :
    (readItem p0 rest).1 ≠ .malformed .readPastEnd := by
  simp only [readItem]
  split
  · rename_i e he
    simpa using classEnd_error he
  · repeat' split
    all_goals simp

theorem readPiece_reads (p0 : UInt8) (rest : List UInt8) :
    (readPiece p0 rest).1 ≠ .malformed .readPastEnd := by
  have hitem := readItem_reads
  simp only [readPiece, readEscape, readFrontier]
  repeat' split
  all_goals simp [hitem]

theorem parse_reads (p : List UInt8) : .malformed .readPastEnd ∉ parse p := by
  fun_induction parse p with
  | case1 => simp
  | case2 p0 rest ih => simp [(readPiece_reads p0 rest).symm, ih]

/-! ## Outcomes -/

/-- Where a match may stand, and what it has captured so far. -/
abbrev Outcome := Nat × Captures

def CharSet.holds (ct : Ctype) (c : UInt8) (cs : CharSet) : Bool :=
  let found := cs.members.any (Member.holds ct c)
  if cs.negate then !found else found

def Single.holds (ct : Ctype) (c : UInt8) : Single → Bool
  | any => true
  | clas x => matchClass ct c x
  | set cs => cs.holds ct c
  | lit x => c == x

def Single.unclosed : Single → Bool
  | set cs => !cs.closed
  | _ => false

def closeLast (i : Nat) : Captures → Option Captures
  | [] => none
  | c :: cs =>
      match closeLast i cs with
      | some cs' => some (c :: cs')
      | none => if c.2 = .unfinished then some ((c.1, .closed i) :: cs) else none

section Outcomes

variable (ct : Ctype) (s : List UInt8)

def Single.matchesAt (t : Single) (i : Nat) : Bool :=
  match s[i]? with
  | none => false
  | some c => t.holds ct c

def Single.run (t : Single) (i : Nat) : Nat :=
  ((s.drop i).takeWhile (t.holds ct)).length

/-- The shortest text from `i` on with as many `y` as `x`; an `x` that is also
`y` counts as `y` behind the first. -/
def balancedEnd (x y : UInt8) (i : Nat) : Option Nat :=
  if s[i]? = some x then
    let rest := s.drop (i + 1)
    ((List.range (rest.length + 1)).find? fun k =>
      (rest.take k).count y = (rest.take k).countP (fun c => c = x ∧ c ≠ y) + 1).map
        (i + 1 + ·)
  else none

def Repeats (a b i : Nat) : Prop :=
  i + (b - a) ≤ s.length ∧ (s.drop i).take (b - a) = (s.drop a).take (b - a)

instance (a b i : Nat) : Decidable (Repeats s a b i) :=
  inferInstanceAs (Decidable (_ ∧ _))

def charBefore (i : Nat) : UInt8 := if i = 0 then 0 else s[i - 1]?.getD 0

def charAt (i : Nat) : UInt8 := s[i]?.getD 0

/-- Where balanced texts end, as far as that is known. -/
abbrev Ends := UInt8 → UInt8 → Nat → Option (Option Nat)

def balanced : Ends := fun x y i => some (balancedEnd s x y i)

/-- Behind a `y`, before the text is balanced, it is deep by a multiple of the range of
an `int`. -/
def Wraps (x y : UInt8) (text : List UInt8) (depth : Nat) : Prop :=
  ∃ k < text.length, text[k]? = some y ∧
    (∀ k' ≤ k + 1, (text.take k').count y ≠
      (text.take k').countP (fun c => c = x ∧ c ≠ y) + depth) ∧
    ((text.take (k + 1)).countP (fun c => c = x ∧ c ≠ y) + depth -
      (text.take (k + 1)).count y) % 2 ^ 32 = 0

instance (x y : UInt8) (text : List UInt8) (depth : Nat) : Decidable (Wraps x y text depth) :=
  inferInstanceAs (Decidable (∃ k < text.length, _ ∧ _ ∧ _))

def balancedInt : Ends := fun x y i =>
  if s[i]? = some x ∧ Wraps x y (s.drop (i + 1)) 1 then none else balanced s x y i

variable (ends : Ends)

/-- The outcomes of an item, unless the scan of its set raises an error. -/
def Single.orUnclosed (t : Single) (outs : List (Except (Option Failure) Outcome)) :
    List (Except (Option Failure) Outcome) :=
  if t.unclosed then [.error (some .missingBracket)] else outs

/-- The outcomes of a piece, in the order in which they are preferred, and the errors
that it comes upon; `none` is an end that is not known. -/
def Piece.outcomes : Piece → Outcome → List (Except (Option Failure) Outcome)
  | opening, (i, cs) => [.ok (i, cs ++ [(i, .unfinished)])]
  | position, (i, cs) => [.ok (i, cs ++ [(i, .position)])]
  | closing, (i, cs) =>
      match closeLast i cs with
      | some cs => [.ok (i, cs)]
      | none => [.error (some .invalidCapture)]
  | atEnd, (i, cs) => if s.length ≤ i then [.ok (i, cs)] else []
  | balance x y, (i, cs) =>
      match ends x y i with
      | some j => j.toList.map fun j => .ok (j, cs)
      | none => [.error none]
  | frontier set, (i, cs) =>
      if s.length < i then [.error (some .readPastEnd)]
      else if set.closed then
        if !set.holds ct (charBefore s i) && set.holds ct (charAt s i) then [.ok (i, cs)]
        else []
      -- no error is raised for a set at the end of the pattern
      else if set.members = [] then []
      else [.error (some .missingBracket)]
  | backref n, (i, cs) =>
      match cs[n]? with
      | some (a, .closed b) => if Repeats s a b i then [.ok (i + (b - a), cs)] else []
      | _ => [.error (some (.invalidCaptureIndex (n + 1)))]
  | one t, (i, cs) => t.orUnclosed (if t.matchesAt ct s i then [.ok (i + 1, cs)] else [])
  | star t, (i, cs) =>
      t.orUnclosed ((List.range (t.run ct s i + 1)).reverse.map fun n => .ok (i + n, cs))
  | plus t, (i, cs) =>
      t.orUnclosed ((List.range (t.run ct s i)).reverse.map fun n => .ok (i + (n + 1), cs))
  | minus t, (i, cs) =>
      -- the rest of the pattern is tried before the item
      if t.unclosed then [.ok (i, cs), .error (some .missingBracket)]
      else (List.range (t.run ct s i + 1)).map fun n => .ok (i + n, cs)
  | opt t, (i, cs) =>
      t.orUnclosed (if t.matchesAt ct s i then [.ok (i + 1, cs), .ok (i, cs)] else [.ok (i, cs)])
  | malformed e, _ => [.error (some e)]

def Piece.deepens : Piece → Bool
  | opening | position | closing | balance _ _ | star _ | plus _ | minus _ | opt _ => true
  | _ => false

/-- The outcomes of a sequence of pieces: backtracking goes to the last choice.  A match
that would be too many levels deep is an error. -/
def outcomes : List Piece → Nat → Outcome → List (Except (Option Failure) Outcome)
  | [], levels, o => if levels = 0 then [.error (some .tooComplex)] else [.ok o]
  | piece :: pieces, levels, o =>
      if levels = 0 then [.error (some .tooComplex)]
      else
        andThen (piece.outcomes ct s ends o)
          (outcomes pieces (if piece.deepens then levels - 1 else levels))

end Outcomes

/-! ### Captures of an outcome -/

/-- The captures start in order of the subject up to `i`, and end behind their starts. -/
def Ordered (i : Nat) (cs : Captures) : Prop :=
  ∀ c ∈ cs, c.1 ≤ i ∧ ∀ e, c.2 = .closed e → c.1 ≤ e ∧ e ≤ i

variable {ct : Ctype} {s : List UInt8}

theorem Ordered.mono {i j : Nat} {cs : Captures} (h : Ordered i cs) (hij : i ≤ j) :
    Ordered j cs := by
  intro c hc
  obtain ⟨hstart, hend⟩ := h c hc
  exact ⟨hstart.trans hij, fun e he => ⟨(hend e he).1, (hend e he).2.trans hij⟩⟩

theorem Ordered.snoc {i : Nat} {cs : Captures} {e : CapEnd} (h : Ordered i cs)
    (he : ∀ j, e ≠ .closed j) : Ordered i (cs ++ [(i, e)]) := by
  intro c hc
  rcases List.mem_append.mp hc with hc | hc
  · exact h c hc
  · obtain rfl := List.mem_singleton.mp hc
    exact ⟨le_rfl, fun j hj => absurd hj (he j)⟩

theorem Ordered.closeLast {i : Nat} {cs cs' : Captures} (h : Ordered i cs)
    (hclose : closeLast i cs = some cs') : Ordered i cs' := by
  induction cs generalizing cs' with
  | nil => cases hclose
  | cons c cs ih =>
      have htail : Ordered i cs := fun d hd => h d (List.mem_cons_of_mem _ hd)
      have hhead := h c List.mem_cons_self
      rw [Pattern.closeLast] at hclose
      split at hclose
      · rename_i cs₁ hrest
        cases hclose
        intro d hd
        rcases List.mem_cons.mp hd with rfl | hd
        · exact hhead
        · exact ih htail hrest d hd
      · split at hclose
        · cases hclose
          intro d hd
          rcases List.mem_cons.mp hd with rfl | hd
          · exact ⟨hhead.1, fun e he => by cases he; exact ⟨hhead.1, le_rfl⟩⟩
          · exact htail d hd
        · cases hclose

def EndsIn (s : List UInt8) (ends : Ends) : Prop :=
  ∀ x y i j, ends x y i = some (some j) → i ≤ j ∧ j ≤ s.length

theorem Single.mem_orUnclosed {t : Single} {outs : List (Except (Option Failure) Outcome)}
    {o : Outcome} (h : .ok o ∈ t.orUnclosed outs) : .ok o ∈ outs := by
  unfold Single.orUnclosed at h
  split at h
  · simp at h
  · exact h

theorem Piece.outcomes_ordered {ends : Ends} (hends : EndsIn s ends) {piece : Piece}
    {o o' : Outcome} (ho : .ok o' ∈ piece.outcomes ct s ends o) (h : Ordered o.1 o.2) :
    o.1 ≤ o'.1 ∧ Ordered o'.1 o'.2 := by
  obtain ⟨i, cs⟩ := o
  have hforward : ∀ {j}, i ≤ j → o' = (j, cs) → i ≤ o'.1 ∧ Ordered o'.1 o'.2 := by
    rintro j hij rfl
    exact ⟨hij, h.mono hij⟩
  cases piece with
  | opening =>
      obtain rfl := Except.ok.inj (List.mem_singleton.mp ho)
      exact ⟨le_rfl, h.snoc fun _ => (nomatch ·)⟩
  | position =>
      obtain rfl := Except.ok.inj (List.mem_singleton.mp ho)
      exact ⟨le_rfl, h.snoc fun _ => (nomatch ·)⟩
  | closing =>
      simp only [outcomes] at ho
      split at ho
      · rename_i cs' hcs
        obtain rfl := Except.ok.inj (List.mem_singleton.mp ho)
        exact ⟨le_rfl, h.closeLast hcs⟩
      · simp at ho
  | atEnd =>
      simp only [outcomes] at ho
      split_ifs at ho
      · exact hforward le_rfl (Except.ok.inj (List.mem_singleton.mp ho))
      · cases ho
  | balance x y =>
      simp only [outcomes] at ho
      split at ho
      · rename_i j hj
        obtain ⟨j', hj', hto⟩ := List.mem_map.mp ho
        obtain rfl := Option.mem_toList.mp hj'
        exact hforward (hends x y i j' hj).1 (Except.ok.inj hto).symm
      · simp at ho
  | frontier set =>
      simp only [outcomes] at ho
      split_ifs at ho
      all_goals simp only [List.mem_singleton, List.not_mem_nil, reduceCtorEq] at ho
      exact hforward le_rfl (Except.ok.inj ho)
  | backref n =>
      simp only [outcomes] at ho
      split at ho
      · split_ifs at ho
        · exact hforward (Nat.le_add_right _ _) (Except.ok.inj (List.mem_singleton.mp ho))
        · cases ho
      · simp at ho
  | one t =>
      have hto := Single.mem_orUnclosed ho
      split_ifs at hto
      · exact hforward (Nat.le_succ i) (Except.ok.inj (List.mem_singleton.mp hto))
      · cases hto
  | star t =>
      obtain ⟨n, -, hto⟩ := List.mem_map.mp (Single.mem_orUnclosed ho)
      exact hforward (Nat.le_add_right _ _) (Except.ok.inj hto).symm
  | plus t =>
      obtain ⟨n, -, hto⟩ := List.mem_map.mp (Single.mem_orUnclosed ho)
      exact hforward (Nat.le_add_right _ _) (Except.ok.inj hto).symm
  | minus t =>
      simp only [outcomes] at ho
      split_ifs at ho
      · have hto : o' = (i, cs) := by simpa using ho
        exact hforward le_rfl hto
      · obtain ⟨n, -, hto⟩ := List.mem_map.mp ho
        exact hforward (Nat.le_add_right _ _) (Except.ok.inj hto).symm
  | opt t =>
      have hto := Single.mem_orUnclosed ho
      split_ifs at hto
      · rcases List.mem_cons.mp hto with hto | hto
        · exact hforward (Nat.le_succ i) (Except.ok.inj hto)
        · exact hforward le_rfl (Except.ok.inj (List.mem_singleton.mp hto))
      · exact hforward le_rfl (Except.ok.inj (List.mem_singleton.mp hto))
  | malformed e => simp [outcomes] at ho

theorem mem_outcomes_nil {ends : Ends} {levels : Nat} {o o' : Outcome}
    (h : .ok o' ∈ outcomes ct s ends [] levels o) : o' = o := by
  rw [outcomes] at h
  split at h
  · simp at h
  · simpa using h

theorem mem_outcomes_cons {ends : Ends} {piece : Piece} {pieces : List Piece} {levels : Nat}
    {o o' : Outcome} (h : .ok o' ∈ outcomes ct s ends (piece :: pieces) levels o) :
    ∃ o₁ levels', .ok o₁ ∈ piece.outcomes ct s ends o ∧
      .ok o' ∈ outcomes ct s ends pieces levels' o₁ := by
  rw [outcomes] at h
  split at h
  · simp at h
  · obtain ⟨o₁, ho₁, ho'⟩ := mem_andThen_ok h
    exact ⟨o₁, _, ho₁, ho'⟩

/-- The ends of closed captures stand behind their starts, so that the lengths that
back references compute are those of texts. -/
theorem outcomes_ordered {ends : Ends} (hends : EndsIn s ends) {pieces : List Piece}
    {levels : Nat} {o o' : Outcome} (ho : .ok o' ∈ outcomes ct s ends pieces levels o)
    (h : Ordered o.1 o.2) : o.1 ≤ o'.1 ∧ Ordered o'.1 o'.2 := by
  induction pieces generalizing o levels with
  | nil =>
      obtain rfl := mem_outcomes_nil ho
      exact ⟨le_rfl, h⟩
  | cons piece pieces ih =>
      obtain ⟨o₁, levels', ho₁, ho'⟩ := mem_outcomes_cons ho
      obtain ⟨hle, h₁⟩ := Piece.outcomes_ordered hends ho₁ h
      obtain ⟨hle', h'⟩ := ih ho' h₁
      exact ⟨hle.trans hle', h'⟩

end Luatier.Pattern
