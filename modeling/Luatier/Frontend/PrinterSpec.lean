import Luatier.Frontend.Printer

/-!
# Reading printed expressions back

At every level of precedence the parser gets over what was printed for that level and
stops before tokens that bind less tightly.  A left associative level goes on with its
loop, a name, an index or a call goes on with its suffixes.
-/

namespace Luatier

open TokenParser

def Token.level : Token → Nat
  | .kwOr => 1
  | .kwAnd => 2
  | .eqEq | .tildeEq | .lt | .ltEq | .gt | .gtEq => 3
  | .pipe => 4
  | .tilde => 5
  | .amp => 6
  | .ltLt | .gtGt => 7
  | .dotDot => 8
  | .plus | .minus => 9
  | .star | .slash | .slashSlash | .percent => 10
  | .caret => 12
  | .dot | .lBracket | .colon | .lParen | .lBrace | .string _ => 13
  | _ => 0

/-- What follows binds less tightly than level `k`. -/
def Follows (k : Nat) (rest : List Token) : Prop :=
  ∀ t ∈ rest.head?, t.level < k

theorem Follows.mono {j k : Nat} {rest : List Token} (h : Follows j rest) (le : j ≤ k) :
    Follows k rest :=
  fun t ht => lt_of_lt_of_le (h t ht) le

theorem follows_cons {k : Nat} {t : Token} {rest : List Token} :
    Follows k (t :: rest) ↔ t.level < k := by
  simp [Follows]

theorem follows_unary {rest : List Token} (h : Follows 12 rest) : Follows 11 rest := by
  intro t ht
  have hlt := h t ht
  have : t.level ≠ 11 := by cases t <;> simp [Token.level]
  omega

def Token.closes : Token → Bool
  | .rParen | .semi | .kwEnd | .kwElse | .kwElseif | .kwUntil => true
  | _ => false

theorem BinOp.level_token (op : BinOp) : op.token.level = op.level := by
  cases op <;> rfl

theorem BinOp.level_le_lhsLevel (op : BinOp) : op.level ≤ op.lhsLevel := by
  cases op <;> decide

/-! ## How a printed expression starts -/

namespace Term

/-- Never with what closes a list, and with a unary operator only when `simple` is
false. -/
def Starts (simple : Prop) (ts : List Token) : Prop :=
  ∃ first us, ts = first :: us ∧ first.closes = false ∧
    (simple → Parser.unop? first = none)

theorem Starts.append {simple : Prop} {ts : List Token} (h : Starts simple ts)
    (us : List Token) : Starts simple (ts ++ us) := by
  obtain ⟨first, vs, rfl, h⟩ := h
  exact ⟨first, vs ++ us, rfl, h⟩

theorem Starts.mono {p q : Prop} {ts : List Token} (h : Starts p ts) (imp : q → p) :
    Starts q ts := by
  obtain ⟨first, us, rfl, hne, hun⟩ := h
  exact ⟨first, us, rfl, hne, fun hq => hun (imp hq)⟩

theorem Starts.at {t : Term} (h : Starts (12 ≤ t.level) t.print) (k : Nat) :
    Starts (12 ≤ k) (t.printAt k) := by
  unfold printAt
  by_cases below : t.level < k
  · rw [decide_eq_true below]
    exact ⟨.lParen, _, rfl, rfl, fun _ => rfl⟩
  · rw [decide_eq_false below]
    exact h.mono fun hk => hk.trans (Nat.not_lt.mp below)

theorem print_starts : ∀ t : Term, Starts (12 ≤ t.level) t.print
  | .nil => ⟨_, _, rfl, rfl, fun _ => rfl⟩
  | .bool true => ⟨_, _, rfl, rfl, fun _ => rfl⟩
  | .bool false => ⟨_, _, rfl, rfl, fun _ => rfl⟩
  | .int _ => ⟨_, _, rfl, rfl, fun _ => rfl⟩
  | .float _ => ⟨_, _, rfl, rfl, fun _ => rfl⟩
  | .string _ => ⟨_, _, rfl, rfl, fun _ => rfl⟩
  | .name _ => ⟨_, _, rfl, rfl, fun _ => rfl⟩
  | .index base _ =>
      (((print_starts base).at 14).mono fun _ => by decide).append _
  | .field base _ =>
      (((print_starts base).at 14).mono fun _ => by decide).append _
  | .call callee _ _ =>
      (((print_starts callee).at 14).mono fun _ => by decide).append _
  | .bin op lhs _ =>
      (((print_starts lhs).at op.lhsLevel).mono fun h => by
        exact le_trans h op.level_le_lhsLevel).append _
  | .un op _ =>
      ⟨op.token, _, rfl, by cases op <;> rfl, fun h => absurd h (by simp [level])⟩

theorem level_pos (t : Term) : 0 < t.level := by
  cases t with
  | bin op => cases op <;> exact Nat.succ_pos _
  | _ => exact Nat.succ_pos _

theorem level_le (t : Term) : t.level ≤ 14 := by
  cases t with
  | bin op => cases op <;> simp [level, BinOp.level]
  | _ => simp [level]

theorem printAt_starts (k : Nat) (t : Term) : Starts (12 ≤ k) (t.printAt k) :=
  (print_starts t).at k

end Term

namespace Parser

/-! ## The levels as one family -/

def leftLevels : List Nat := [1, 2, 3, 4, 5, 6, 7, 9, 10]

def leftOp? : Nat → Token → Option BinOp
  | 1 => orOp?
  | 2 => andOp?
  | 3 => compareOp?
  | 4 => borOp?
  | 5 => bxorOp?
  | 6 => bandOp?
  | 7 => shiftOp?
  | 9 => addOp?
  | 10 => mulOp?
  | _ => fun _ => none

def levelParser (g : Guarded) : Nat → Parser Expr
  | 1 => parseOr g
  | 2 => parseAnd g
  | 3 => parseCompare g
  | 4 => parseBor g
  | 5 => parseBxor g
  | 6 => parseBand g
  | 7 => parseShift g
  | 8 => parseConcat g
  | 9 => parseAdd g
  | 10 => parseMul g
  | 11 => parseUnary g
  | 12 => parsePower g
  | _ => parseSimple g

theorem levelParser_left (g : Guarded) {k : Nat} (hk : k ∈ leftLevels) :
    levelParser g k = leftLevel (leftOp? k) .bin (levelParser g (k + 1)) := by
  simp only [leftLevels, List.mem_cons, List.not_mem_nil, or_false] at hk
  rcases hk with rfl | rfl | rfl | rfl | rfl | rfl | rfl | rfl | rfl <;> rfl

theorem leftOp?_token (op : BinOp) (h : op.level ∈ leftLevels) :
    leftOp? op.level op.token = some op := by
  cases op <;> first | rfl | simp [BinOp.level, leftLevels] at h

theorem level_of_leftOp? {k : Nat} {t : Token} (h : leftOp? k t ≠ none) : t.level = k := by
  unfold leftOp? at h
  split at h
  · unfold orOp? at h; split at h <;> first | rfl | exact absurd rfl h
  · unfold andOp? at h; split at h <;> first | rfl | exact absurd rfl h
  · unfold compareOp? at h; split at h <;> first | rfl | exact absurd rfl h
  · unfold borOp? at h; split at h <;> first | rfl | exact absurd rfl h
  · unfold bxorOp? at h; split at h <;> first | rfl | exact absurd rfl h
  · unfold bandOp? at h; split at h <;> first | rfl | exact absurd rfl h
  · unfold shiftOp? at h; split at h <;> first | rfl | exact absurd rfl h
  · unfold addOp? at h; split at h <;> first | rfl | exact absurd rfl h
  · unfold mulOp? at h; split at h <;> first | rfl | exact absurd rfl h
  · exact absurd rfl h

theorem leftOp?_follows {k : Nat} {rest : List Token} (h : Follows k rest) :
    ∀ t ∈ rest.head?, leftOp? k t = none := by
  intro t ht
  by_contra hop
  exact absurd (level_of_leftOp? hop) (Nat.ne_of_lt (h t ht))

theorem suffix?_follows (g : Guarded) {rest : List Token} (h : Follows 13 rest) :
    ∀ t ∈ rest.head?, suffix? g t = none := by
  intro t ht
  have hlt := h t ht
  cases t <;> first | rfl | simp [Token.level] at hlt

/-! ## Going down one level -/

section Descent

variable {g : Guarded} {ts : List Token} {e : Expr}

theorem reads_left {k : Nat} (hk : k ∈ leftLevels)
    (h : Reads (levelParser g (k + 1)) (Follows (k + 1)) ts e) :
    Reads (levelParser g k) (Follows k) ts e := by
  rw [levelParser_left g hk]
  exact leftLevel_reads (leftLevel_leads_operand h)
    (fun _ hrest => hrest.mono (Nat.le_succ k)) fun _ hrest => leftOp?_follows hrest

theorem not_head_of_follows {k : Nat} {t : Token} {rest : List Token}
    (h : Follows k rest) (le : k ≤ t.level) : rest.head? ≠ some t :=
  fun ht => absurd (h t ht) (Nat.not_lt.mpr le)

theorem reads_concat (h : Reads (parseAdd g) (Follows 9) ts e) :
    Reads (parseConcat g) (Follows 8) ts e := by
  intro rest s hrest
  have stop : rest.head? ≠ some .dotDot := not_head_of_follows hrest (by decide)
  rw [parseConcat, run_bind, h rest s (hrest.mono (by decide))]
  simp [stop]

theorem reads_unary (h : Reads (parsePower g) (Follows 12) ts e)
    (start : Term.Starts True ts) : Reads (parseUnary g) (Follows 11) ts e := by
  obtain ⟨first, us, rfl, -, hfirst⟩ := start
  intro rest s hrest
  have power := h rest s (hrest.mono (by decide))
  rw [List.cons_append] at power
  simp [parseUnary, hfirst, power]

theorem reads_power (h : Reads (parseSimple g) (Follows 13) ts e) :
    Reads (parsePower g) (Follows 12) ts e := by
  intro rest s hrest
  have stop : rest.head? ≠ some .caret := not_head_of_follows hrest (by decide)
  rw [parsePower, run_bind, h rest s (hrest.mono (by decide))]
  simp [stop]

theorem reads_down_one {k : Nat} (pos : 0 < k) (top : k < 13)
    (start : k = 11 → Term.Starts True ts)
    (h : Reads (levelParser g (k + 1)) (Follows (k + 1)) ts e) :
    Reads (levelParser g k) (Follows k) ts e := by
  by_cases hleft : k ∈ leftLevels
  · exact reads_left hleft h
  · have hk : k = 8 ∨ k = 11 ∨ k = 12 := by
      simp only [leftLevels, List.mem_cons, List.not_mem_nil, or_false] at hleft
      omega
    rcases hk with rfl | rfl | rfl
    · exact reads_concat h
    · exact reads_unary h (start rfl)
    · exact reads_power h

theorem reads_down {j k : Nat} (pos : 0 < j) (le : j ≤ k) (top : k ≤ 13)
    (start : Term.Starts (12 ≤ k) ts)
    (h : Reads (levelParser g k) (Follows k) ts e) :
    Reads (levelParser g j) (Follows j) ts e := by
  induction k, le using Nat.le_induction with
  | base => exact h
  | succ k le ih =>
      refine ih (by omega) (start.mono fun h => by omega) ?_
      exact reads_down_one (by omega) (by omega)
        (fun hk => start.mono fun _ => by omega) h

end Descent

/-! ## Operands -/

/-- How the parser with `n` levels left reads `t`: whole, as the start of the loop of
its level, and as the start of a chain of suffixes. -/
structure ReadBack (n : Nat) (t : Term) : Prop where
  reads : Reads (levelParser (guarded n) (min t.level 13)) (Follows (min t.level 13))
    t.print t.parsed
  loops : t.level ∈ leftLevels →
    Leads (levelParser (guarded n) t.level) (Follows (t.level + 1)) t.print
      (leftLoop (leftOp? t.level) .bin (levelParser (guarded n) (t.level + 1)) t.parsed)
  suffixes : t.level = 14 →
    Leads (parseSimple (guarded n)) (fun _ => True) t.print
      (parseSuffix (guarded n) t.parsed)

section Operands

variable {t : Term} {n : Nat}

theorem expr_reads (ih : ∀ n, t.depth ≤ n → ReadBack n t) (h : t.depth + 1 ≤ n) :
    Reads (guarded n).expr (Follows 1) t.print t.parsed := by
  obtain ⟨m, rfl⟩ : ∃ m, n = m + 1 := ⟨n - 1, by omega⟩
  have pos : 1 ≤ min t.level 13 := le_min t.level_pos (by decide)
  exact reads_down (g := guarded m) (by decide) pos (min_le_right _ _)
    (t.print_starts.mono fun h => h.trans (min_le_left _ _))
    (ih m (by omega)).reads

theorem parsePrimary_lParen (g : Guarded) :
    parsePrimary g .lParen = (do
      let e ← g.expr
      expect .rParen "expected ')'"
      return .paren e) := rfl

theorem parsePrimary_identifier (g : Guarded) (text : Name) :
    parsePrimary g (.identifier text) = return .name text := rfl

theorem paren_leads (ih : ∀ n, t.depth ≤ n → ReadBack n t) (h : t.depth + 1 ≤ n) :
    Leads (parseSimple (guarded n)) (fun _ => True) (.lParen :: t.print ++ [.rParen])
      (parseSuffix (guarded n) (.paren t.parsed)) := by
  intro rest s _
  have inner := expr_reads ih h (.rParen :: rest) s (follows_cons.mpr (by decide))
  simp [parseSimple, parsePrimary_lParen, inner, allowSuffix]

theorem suffix_stops {g : Guarded} {e : Expr} {rest : List Token} {s : Nat}
    (h : Follows 13 rest) : run (parseSuffix g e) ⟨rest, s⟩ = .ok (e, ⟨rest, s⟩) :=
  run_whileNext_stop (suffix?_follows g h)

theorem base_leads (ih : ∀ n, t.depth ≤ n → ReadBack n t)
    (h : Term.deeper (t.level < 14) t.depth ≤ n) :
    Leads (parseSimple (guarded n)) (fun _ => True) (t.printAt 14)
      (parseSuffix (guarded n) (Term.withParen (t.level < 14) t.parsed)) := by
  unfold Term.printAt
  by_cases below : t.level < 14
  · rw [decide_eq_true below] at h ⊢
    exact paren_leads ih h
  · rw [decide_eq_false below] at h ⊢
    exact (ih n h).suffixes (by have := t.level_le; omega)

theorem operand_reads {k : Nat} (pos : 0 < k) (top : k ≤ 13)
    (ih : ∀ n, t.depth ≤ n → ReadBack n t)
    (h : Term.deeper (t.level < k) t.depth ≤ n) :
    Reads (levelParser (guarded n) k) (Follows k) (t.printAt k)
      (Term.withParen (t.level < k) t.parsed) := by
  have start := t.printAt_starts k
  unfold Term.printAt at start ⊢
  by_cases below : t.level < k
  · rw [decide_eq_true below] at h start ⊢
    refine reads_down (k := 13) pos top le_rfl ?_ fun rest s hrest => ?_
    · exact ⟨.lParen, _, rfl, rfl, fun _ => rfl⟩
    · exact (paren_leads ih h rest s trivial).trans (suffix_stops hrest)
  · rw [decide_eq_false below] at h start ⊢
    exact reads_down pos (le_min (Nat.not_lt.mp below) top) (min_le_right _ _)
      (t.print_starts.mono fun h => h.trans (min_le_left _ _)) (ih n h).reads

theorem operand_loops {k : Nat} (hk : k ∈ leftLevels)
    (ih : ∀ n, t.depth ≤ n → ReadBack n t)
    (h : Term.deeper (t.level < k) t.depth ≤ n) :
    Leads (levelParser (guarded n) k) (Follows (k + 1)) (t.printAt k)
      (leftLoop (leftOp? k) .bin (levelParser (guarded n) (k + 1))
        (Term.withParen (t.level < k) t.parsed)) := by
  by_cases same : t.level = k
  · subst same
    have loops := (ih n (by simpa [Term.deeper] using h)).loops hk
    simpa [Term.printAt, Term.parenthesised, Term.withParen] using loops
  · have next : decide (t.level < k + 1) = decide (t.level < k) := by
      rw [decide_eq_decide]
      omega
    have top : k + 1 ≤ 13 := by
      simp only [leftLevels, List.mem_cons, List.not_mem_nil, or_false] at hk
      omega
    have reads := operand_reads (n := n) (Nat.succ_pos k) top ih
      (by rw [next]; exact h)
    rw [Term.printAt, next] at reads
    rw [levelParser_left _ hk]
    exact leftLevel_leads_operand reads

end Operands

/-! ## Expressions -/

section Expressions

variable {n : Nat}

theorem deeper_right {b : Prop} [Decidable b] {k : Nat} (hb : b)
    (h : Term.deeper b k ≤ n) : ∃ m, n = m + 1 ∧ k ≤ m := by
  rw [Term.deeper, if_pos (decide_eq_true hb)] at h
  exact ⟨n - 1, by omega, by omega⟩

theorem ReadBack.of_reads {t : Term} (h : t.level ∉ leftLevels) (top : t.level ≤ 13)
    (reads : Reads (levelParser (guarded n) t.level) (Follows t.level) t.print t.parsed) :
    ReadBack n t where
  reads := by rwa [min_eq_left top]
  loops := fun hleft => absurd hleft h
  suffixes := fun h14 => by omega

theorem ReadBack.of_suffixes {t : Term} (h : t.level = 14)
    (suffixes : Leads (parseSimple (guarded n)) (fun _ => True) t.print
      (parseSuffix (guarded n) t.parsed)) : ReadBack n t where
  reads := by
    rw [h]
    exact fun rest s hrest => (suffixes rest s trivial).trans (suffix_stops hrest)
  loops := fun hleft => by rw [h] at hleft; exact absurd hleft (by decide)
  suffixes := fun _ => suffixes

theorem readBack_const {t : Term} (h : t.level = 13)
    (reads : ∀ rest s, run (parseSimple (guarded n)) ⟨t.print ++ rest, s⟩ =
      .ok (t.parsed, ⟨rest, s⟩)) : ReadBack n t :=
  .of_reads (by rw [h]; decide) h.le fun rest s _ => by rw [h]; exact reads rest s

section Operators

variable {op : BinOp} {lhs rhs : Term} (ihl : ∀ n, lhs.depth ≤ n → ReadBack n lhs)
  (ihr : ∀ n, rhs.depth ≤ n → ReadBack n rhs)

include ihl ihr

theorem readBack_left (hop : op.level ∈ leftLevels)
    (h : (Term.bin op lhs rhs).depth ≤ n) : ReadBack n (.bin op lhs rhs) := by
  have places : op.lhsLevel = op.level ∧ op.rhsLevel = op.level + 1 ∧
      ¬(op = .concat ∨ op = .pow) := by
    cases op <;> first | decide | exact absurd hop (by decide)
  have top : op.level < 13 := by
    cases op <;> decide
  simp only [Term.depth, places, Term.deeper, decide_false, Bool.false_eq_true,
    if_false, max_le_iff] at h
  have leads := operand_loops hop ihl h.1
  have reads := operand_reads (Nat.succ_pos op.level) (by omega) ihr h.2
  have loops : Leads (levelParser (guarded n) op.level) (Follows (op.level + 1))
      (Term.bin op lhs rhs).print
      (leftLoop (leftOp? op.level) .bin (levelParser (guarded n) (op.level + 1))
        (Term.bin op lhs rhs).parsed) := by
    simp only [Term.print, Term.parsed, places]
    rw [levelParser_left _ hop] at leads ⊢
    refine leftLevel_leads_operator leads (leftOp?_token op hop) reads fun rest => ?_
    rw [List.cons_append, follows_cons, op.level_token]
    exact Nat.lt_succ_self _
  refine ⟨?_, fun _ => loops, fun h14 => absurd h14 (by simp only [Term.level]; omega)⟩
  rw [show min (Term.bin op lhs rhs).level 13 = op.level from min_eq_left top.le]
  rw [levelParser_left _ hop] at loops ⊢
  exact leftLevel_reads loops (fun _ hrest => hrest.mono (Nat.le_succ _))
    fun _ hrest => leftOp?_follows hrest

theorem readBack_concat (h : (Term.bin .concat lhs rhs).depth ≤ n) :
    ReadBack n (.bin .concat lhs rhs) := by
  refine .of_reads (show 8 ∉ leftLevels by decide) (show 8 ≤ 13 by decide)
    fun rest s hrest => ?_
  obtain ⟨hl, hright⟩ := max_le_iff.mp h
  obtain ⟨m, rfl, hr⟩ := deeper_right (.inl rfl) hright
  have left := operand_reads (k := 9) (by decide) (by decide) ihl hl
    (.dotDot :: (rhs.printAt 8 ++ rest)) s (follows_cons.mpr (by decide))
  have right := operand_reads (k := 8) (by decide) (by decide) ihr hr rest s hrest
  simp only [levelParser] at left right
  show run (parseConcat (guarded (m + 1)))
    ⟨(lhs.printAt 9 ++ .dotDot :: rhs.printAt 8) ++ rest, s⟩ = _
  rw [List.append_assoc, List.cons_append, parseConcat, run_bind, left]
  simp [guarded, right]
  rfl

theorem readBack_pow (h : (Term.bin .pow lhs rhs).depth ≤ n) :
    ReadBack n (.bin .pow lhs rhs) := by
  refine .of_reads (show 12 ∉ leftLevels by decide) (show 12 ≤ 13 by decide)
    fun rest s hrest => ?_
  obtain ⟨hl, hright⟩ := max_le_iff.mp h
  obtain ⟨m, rfl, hr⟩ := deeper_right (.inr rfl) hright
  have left := operand_reads (k := 13) (by decide) (by decide) ihl hl
    (.caret :: (rhs.printAt 11 ++ rest)) s (follows_cons.mpr (by decide))
  have right := operand_reads (k := 11) (by decide) (by decide) ihr hr rest s
    (follows_unary hrest)
  simp only [levelParser] at left right
  show run (parsePower (guarded (m + 1)))
    ⟨(lhs.printAt 13 ++ .caret :: rhs.printAt 11) ++ rest, s⟩ = _
  rw [List.append_assoc, List.cons_append, parsePower, run_bind, left]
  simp [guarded, right]
  rfl

end Operators

theorem readBack_un {op : UnOp} {operand : Term}
    (ih : ∀ n, operand.depth ≤ n → ReadBack n operand)
    (h : (Term.un op operand).depth ≤ n) : ReadBack n (.un op operand) := by
  refine .of_reads (show 11 ∉ leftLevels by decide) (show 11 ≤ 13 by decide)
    fun rest s hrest => ?_
  have deeper : Term.deeper (operand.level < 11) operand.depth + 1 ≤ n := h
  obtain ⟨m, rfl⟩ : ∃ m, n = m + 1 := ⟨n - 1, by omega⟩
  have inner := operand_reads (k := 11) (by decide) (by decide) ih
    (Nat.succ_le_succ_iff.mp deeper) rest s hrest
  have hop : unop? op.token = some op := by cases op <;> rfl
  simp only [levelParser] at inner
  show run (parseUnary (guarded (m + 1))) ⟨op.token :: operand.printAt 11 ++ rest, s⟩ = _
  rw [parseUnary, List.cons_append]
  simp [hop, guarded, inner]
  rfl

/-! ## Names, indices and calls -/

theorem readBack_name (name : Name) : ReadBack n (.name name) := by
  refine .of_suffixes rfl fun rest s _ => ?_
  simp [Term.print, Term.parsed, parseSimple, parsePrimary_identifier, allowSuffix]

section Suffixes

variable {base : Term} (ihb : ∀ n, base.depth ≤ n → ReadBack n base)

include ihb

theorem readBack_field {f : Name} (h : (Term.field base f).depth ≤ n) :
    ReadBack n (.field base f) := by
  refine .of_suffixes rfl fun rest s _ => ?_
  have leads := base_leads ihb h (.dot :: .identifier f :: rest) s trivial
  rw [Term.print, List.append_assoc]
  refine leads.trans ?_
  rw [parseSuffix, run_whileNext_step (g := _) rfl]
  simp
  rfl

theorem readBack_index {key : Term} (ihk : ∀ n, key.depth ≤ n → ReadBack n key)
    (h : (Term.index base key).depth ≤ n) : ReadBack n (.index base key) := by
  refine .of_suffixes rfl fun rest s _ => ?_
  obtain ⟨hbase, hkey⟩ := max_le_iff.mp h
  have leads := base_leads ihb hbase (.lBracket :: (key.print ++ .rBracket :: rest)) s trivial
  have inner := expr_reads ihk hkey (.rBracket :: rest) s (follows_cons.mpr (by decide))
  rw [Term.print, List.append_assoc, List.cons_append, List.append_assoc]
  refine leads.trans ?_
  rw [parseSuffix, run_whileNext_step (g := _) rfl]
  simp [inner]
  rfl

end Suffixes

/-! ## Arguments -/

def MoreRead (n : Nat) (ts : List Term) : Prop :=
  ∀ acc rest s,
    run (whileMatch .comma (fun list => do return list ++ [← (guarded n).expr]) acc)
      ⟨Term.printMore ts ++ .rParen :: rest, s⟩ =
    .ok (acc ++ Term.parsedArgs ts, ⟨.rParen :: rest, s⟩)

theorem moreRead_nil : MoreRead n [] := by
  intro acc rest s
  rw [Term.printMore, Term.parsedArgs, List.append_nil]
  exact run_whileMatch_stop nofun

theorem follows_more {ts : List Term} {rest : List Token} :
    Follows 1 (Term.printMore ts ++ .rParen :: rest) := by
  cases ts <;> exact follows_cons.mpr (by decide)

theorem moreRead_cons {t : Term} {ts : List Term}
    (iht : ∀ n, t.depth ≤ n → ReadBack n t) (h : t.depth + 1 ≤ n) (ihs : MoreRead n ts) :
    MoreRead n (t :: ts) := by
  intro acc rest s
  have first := expr_reads iht h (Term.printMore ts ++ .rParen :: rest) s follows_more
  have others := ihs (acc ++ [t.parsed]) rest s
  rw [List.append_assoc, List.singleton_append] at others
  rw [Term.printMore, Term.parsedArgs, List.cons_append, List.append_assoc,
    run_whileMatch_step, run_bind, first]
  exact others

theorem exprList_reads {t : Term} {ts : List Term}
    (iht : ∀ n, t.depth ≤ n → ReadBack n t) (h : t.depth + 1 ≤ n) (ihs : MoreRead n ts)
    (rest : List Token) (s : Nat) :
    run (parseExprList (guarded n)) ⟨Term.printArgs (t :: ts) ++ .rParen :: rest, s⟩ =
      .ok (Term.parsedArgs (t :: ts), ⟨.rParen :: rest, s⟩) := by
  have first := expr_reads iht h (Term.printMore ts ++ .rParen :: rest) s follows_more
  rw [Term.printArgs, List.append_assoc, parseExprList, run_bind, first]
  exact ihs [t.parsed] rest s

theorem args_nil {g : Guarded} {rest : List Token} {s : Nat} :
    run (parseArgs g) ⟨.rParen :: rest, s⟩ = .ok ([], ⟨rest, s⟩) := by
  simp [parseArgs]

theorem args_cons {t : Term} {ts : List Term} {rest : List Token} {s : Nat}
    (h : run (parseExprList (guarded n)) ⟨Term.printArgs (t :: ts) ++ .rParen :: rest, s⟩ =
      .ok (Term.parsedArgs (t :: ts), ⟨.rParen :: rest, s⟩)) :
    run (parseArgs (guarded n)) ⟨Term.printArgs (t :: ts) ++ .rParen :: rest, s⟩ =
      .ok (Term.parsedArgs (t :: ts), ⟨rest, s⟩) := by
  obtain ⟨first, us, hprint, hcloses, -⟩ := t.print_starts
  have hne : first ≠ .rParen := by rintro rfl; exact absurd hcloses (by decide)
  have start : Term.printArgs (t :: ts) ++ .rParen :: rest =
      first :: (us ++ (Term.printMore ts ++ .rParen :: rest)) := by
    simp [Term.printArgs, hprint]
  rw [start] at h ⊢
  simp [parseArgs, hne, h]

/-- The arguments of a call after its `(`. -/
def ArgsRead (n : Nat) (ts : List Term) : Prop :=
  ∀ rest s, run (parseArgs (guarded n)) ⟨Term.printArgs ts ++ .rParen :: rest, s⟩ =
    .ok (Term.parsedArgs ts, ⟨rest, s⟩)

theorem readBack_call {callee : Term} {args : List Term} {method : Option Name}
    (ihc : ∀ n, callee.depth ≤ n → ReadBack n callee) (iha : ArgsRead n args)
    (h : (Term.call callee args method).depth ≤ n) :
    ReadBack n (.call callee args method) := by
  refine .of_suffixes rfl fun rest s _ => ?_
  have leads := base_leads ihc (max_le_iff.mp h).1
    (Term.methodTokens method ++ .lParen :: (Term.printArgs args ++ .rParen :: rest)) s
    trivial
  rw [Term.print, List.append_assoc, List.append_assoc, List.cons_append,
    List.append_assoc]
  refine leads.trans ?_
  cases method with
  | none =>
      rw [Term.methodTokens, List.nil_append, parseSuffix, run_whileNext_step (g := _) rfl]
      simp [iha rest s]
      rfl
  | some method =>
      rw [Term.methodTokens, List.cons_append, parseSuffix,
        run_whileNext_step (g := _) rfl]
      simp [iha rest s]
      rfl

mutual

/-- Induction over the expression: every operand is read before its operator is. -/
theorem readBack : ∀ (t : Term) (n : Nat), t.depth ≤ n → ReadBack n t
  | .nil, _, _ => readBack_const rfl fun _ _ => rfl
  | .bool true, _, _ => readBack_const rfl fun _ _ => rfl
  | .bool false, _, _ => readBack_const rfl fun _ _ => rfl
  | .int _, _, _ => readBack_const rfl fun _ _ => rfl
  | .float _, _, _ => readBack_const rfl fun _ _ => rfl
  | .string _, _, _ => readBack_const rfl fun _ _ => rfl
  | .name name, _, _ => readBack_name name
  | .index base key, _, h => readBack_index (readBack base) (readBack key) h
  | .field base _, _, h => readBack_field (readBack base) h
  | .bin .concat lhs rhs, _, h => readBack_concat (readBack lhs) (readBack rhs) h
  | .bin .pow lhs rhs, _, h => readBack_pow (readBack lhs) (readBack rhs) h
  | .bin op lhs rhs, _, h => by
      by_cases hop : op.level ∈ leftLevels
      · exact readBack_left (readBack lhs) (readBack rhs) hop h
      · cases op <;> first
          | exact absurd (by decide) hop
          | exact readBack_concat (readBack lhs) (readBack rhs) h
          | exact readBack_pow (readBack lhs) (readBack rhs) h
  | .un _ operand, _, h => readBack_un (readBack operand) h
  | .call callee args _, _, h =>
      readBack_call (readBack callee) (argsRead args _ (max_le_iff.mp h).2) h

theorem argsRead : ∀ (ts : List Term) (n : Nat), Term.depthArgs ts ≤ n → ArgsRead n ts
  | [], _, _ => fun _ _ => args_nil
  | t :: ts, n, h => fun rest s =>
      args_cons (exprList_reads (readBack t) (max_le_iff.mp h).1
        (moreRead ts n (max_le_iff.mp h).2) rest s)

theorem moreRead : ∀ (ts : List Term) (n : Nat), Term.depthArgs ts ≤ n → MoreRead n ts
  | [], _, _ => moreRead_nil
  | t :: ts, n, h => moreRead_cons (readBack t) (max_le_iff.mp h).1
      (moreRead ts n (max_le_iff.mp h).2)

end

end Expressions

/-- What is printed with the fewest parentheses is read back, up to the nodes of the
parentheses, before any token that does not continue the expression. -/
theorem parseExpr_print (t : Term) (levels : Nat) (h : t.nesting ≤ levels)
    (rest : List Token) (hrest : Follows 1 rest) (nactvar : Nat) :
    ∃ e, run (parseExpr levels) ⟨t.print ++ rest, nactvar⟩ = .ok (e, ⟨rest, nactvar⟩) ∧
      e.eraseParens = t.toExpr :=
  ⟨t.parsed, expr_reads (readBack t) h rest nactvar hrest, t.eraseParens_parsed⟩

/-- `-x ^ 2 .. (a + b) * t[1] == ("s").f(not y)` -/
def mixedTerm : Term :=
  .bin .eq
    (.bin .concat (.un .neg (.bin .pow (.name "x") (.int 2)))
      (.bin .mul (.bin .add (.name "a") (.name "b")) (.index (.name "t") (.int 1))))
    (.call (.field (.string "s") "f") [.un .not (.name "y")] none)

theorem mixedTerm_read :
    ∃ e, run (parseExpr maxLevels) ⟨[.minus, .identifier "x", .caret, .integer 2, .dotDot,
        .lParen, .identifier "a", .plus, .identifier "b", .rParen, .star, .identifier "t",
        .lBracket, .integer 1, .rBracket, .eqEq, .lParen, .string "s", .rParen, .dot,
        .identifier "f", .lParen, .kwNot, .identifier "y", .rParen, .kwThen], 0⟩ =
      .ok (e, ⟨[.kwThen], 0⟩) ∧ e.eraseParens = mixedTerm.toExpr :=
  parseExpr_print mixedTerm maxLevels (by decide) [.kwThen]
    (follows_cons.mpr (by decide)) 0

theorem return_reads {g : Guarded} {first : Token} {us : List Token} {s : Nat}
    {r : List Expr × Cursor Token Nat} (hcloses : first.closes = false)
    (list : run (parseExprList g) ⟨first :: us, s⟩ = .ok r) :
    run (parseReturn g) ⟨first :: us, s⟩ = .ok (.return r.1, r.2) := by
  rw [parseReturn, run_bind, run_peek]
  cases first <;> first
    | exact absurd hcloses (by decide)
    | simp [list]

/-- A chunk that returns a printed expression. -/
theorem parse_return_print (t : Term) (h : t.nesting < maxLevels) :
    ∃ e, parse (.kwReturn :: t.print) = .ok (.mk [.return [e]]) ∧
      e.eraseParens = t.toExpr := by
  refine ⟨t.parsed, ?_, t.eraseParens_parsed⟩
  have inner := expr_reads (n := 199) (readBack t) (Nat.le_of_lt_succ h) [] 0 nofun
  rw [List.append_nil] at inner
  have list : run (parseExprList (guarded 199)) ⟨t.print, 0⟩ =
      .ok ([t.parsed], ⟨[], 0⟩) := by
    rw [parseExprList, run_bind, inner]
    exact run_whileMatch_stop nofun
  have statement : run ((guarded maxLevels).stmt .kwReturn) ⟨t.print, 0⟩ =
      .ok (.return [t.parsed], ⟨[], 0⟩) := by
    obtain ⟨first, us, hprint, hcloses, -⟩ := t.print_starts
    rw [hprint] at list ⊢
    exact return_reads hcloses list
  have block : run (parseBlock (guarded maxLevels)) ⟨.kwReturn :: t.print, 0⟩ =
      .ok (.mk [.return [t.parsed]], ⟨[], 0⟩) := by
    rw [parseBlock, run_bind, run_whileNext_step (g := .kwReturn) rfl]
    simp [parseBlock.stmtOfBlock, statement, matchToken]
    rw [run_whileNext_stop nofun]
    rfl
  simp [parse, parseChunk, block]
  rfl

end Parser

end Luatier
