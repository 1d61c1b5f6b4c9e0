import Mathlib.Data.Option.Basic
import Mathlib.Order.Basic

/-!
# Parsers over a list of tokens

A parser reads tokens, keeps a state of its own beside them, and never hands back
more tokens than it was given, so that a loop which takes a token each round ends.
`Leads` says how a parser gets over a piece of its input, and `leftLevel` reads the
left associative operators of one level of precedence.
-/

variable {τ σ ε α β γ : Type}

/-- What a parser stands before: the tokens left, and its own state. -/
structure Cursor (τ σ : Type) where
  tokens : List τ
  own : σ

structure ParserReply (c : Cursor τ σ) (α : Type) where
  value : α
  cursor : Cursor τ σ
  le : cursor.tokens.length ≤ c.tokens.length

def TokenParser (τ σ ε α : Type) : Type :=
  (c : Cursor τ σ) → Except ε (ParserReply c α)

namespace TokenParser

def run (p : TokenParser τ σ ε α) (c : Cursor τ σ) : Except ε (α × Cursor τ σ) :=
  match p c with
  | .error e => .error e
  | .ok r => .ok (r.value, r.cursor)

def andThen (p : TokenParser τ σ ε α) (f : α → TokenParser τ σ ε β) :
    TokenParser τ σ ε β := fun c =>
  match p c with
  | .error e => .error e
  | .ok r =>
      match f r.value r.cursor with
      | .error e => .error e
      | .ok r' => .ok ⟨r'.value, r'.cursor, Nat.le_trans r'.le r.le⟩

instance : Monad (TokenParser τ σ ε) where
  pure a := fun c => .ok ⟨a, c, Nat.le_refl _⟩
  bind := andThen

def fail (e : Cursor τ σ → ε) : TokenParser τ σ ε α := fun c => .error (e c)

def peek : TokenParser τ σ ε (Option τ) := fun c =>
  .ok ⟨c.tokens.head?, c, Nat.le_refl _⟩

def next : TokenParser τ σ ε (Option τ) := fun c =>
  .ok ⟨c.tokens.head?, ⟨c.tokens.tail, c.own⟩, by simp⟩

def getOwn : TokenParser τ σ ε σ := fun c => .ok ⟨c.own, c, Nat.le_refl _⟩

def setOwn (s : σ) : TokenParser τ σ ε Unit := fun c =>
  .ok ⟨(), ⟨c.tokens, s⟩, Nat.le_refl _⟩

def whileNext (start : α → τ → Option γ) (body : α → γ → TokenParser τ σ ε α) (a : α) :
    TokenParser τ σ ε α := fun c =>
  match h : c.tokens with
  | [] => .ok ⟨a, c, Nat.le_refl _⟩
  | t :: ts =>
      match start a t with
      | none => .ok ⟨a, c, Nat.le_refl _⟩
      | some g =>
          match body a g ⟨ts, c.own⟩ with
          | .error e => .error e
          | .ok r =>
              match whileNext start body r.value r.cursor with
              | .error e => .error e
              | .ok r' => .ok ⟨r'.value, r'.cursor, by
                  have round : r.cursor.tokens.length ≤ ts.length := r.le
                  have others := r'.le
                  simp only [h, List.length_cons]
                  omega⟩
termination_by c => c.tokens.length
decreasing_by
  have round : r.cursor.tokens.length ≤ ts.length := r.le
  simp only [h, List.length_cons]
  omega

section Runs

variable {p : TokenParser τ σ ε α} {f : α → TokenParser τ σ ε β}

@[simp] theorem ok_bind {a : α} {h : α → Except ε β} : (Except.ok a >>= h) = h a :=
  rfl

@[simp] theorem run_pure (a : α) (c : Cursor τ σ) :
    run (pure a : TokenParser τ σ ε α) c = .ok (a, c) :=
  rfl

@[simp] theorem run_bind (c : Cursor τ σ) :
    run (p >>= f) c = (run p c >>= fun r => run (f r.1) r.2) := by
  show run (andThen p f) c = _
  unfold run andThen
  cases hp : p c with
  | error e => rfl
  | ok r =>
      change _ = run (f r.value) r.cursor
      rw [run]
      cases hf : f r.value r.cursor <;> simp only [hf]

@[simp] theorem run_map (g : α → β) (c : Cursor τ σ) :
    run (g <$> p) c = (run p c >>= fun r => .ok (g r.1, r.2)) := by
  show run (p >>= fun a => pure (g a)) c = _
  simp

@[simp] theorem run_fail (e : Cursor τ σ → ε) (c : Cursor τ σ) :
    run (fail e : TokenParser τ σ ε α) c = .error (e c) :=
  rfl

@[simp] theorem run_peek (c : Cursor τ σ) :
    run (peek : TokenParser τ σ ε (Option τ)) c = .ok (c.tokens.head?, c) :=
  rfl

@[simp] theorem run_next (c : Cursor τ σ) :
    run (next : TokenParser τ σ ε (Option τ)) c =
      .ok (c.tokens.head?, ⟨c.tokens.tail, c.own⟩) :=
  rfl

@[simp] theorem run_getOwn (c : Cursor τ σ) :
    run (getOwn : TokenParser τ σ ε σ) c = .ok (c.own, c) :=
  rfl

@[simp] theorem run_setOwn (s : σ) (c : Cursor τ σ) :
    run (setOwn s : TokenParser τ σ ε Unit) c = .ok ((), ⟨c.tokens, s⟩) :=
  rfl

end Runs

section Loops

variable {start : α → τ → Option γ} {body : α → γ → TokenParser τ σ ε α}

theorem run_whileNext_stop {a : α} {c : Cursor τ σ}
    (h : ∀ t ∈ c.tokens.head?, start a t = none) :
    run (whileNext start body a) c = .ok (a, c) := by
  obtain ⟨tokens, own⟩ := c
  cases tokens with
  | nil => rw [run, whileNext]
  | cons t ts =>
      have ht : start a t = none := h t rfl
      rw [run, whileNext]
      simp only [ht]

theorem run_whileNext_step {a : α} {t : τ} {ts : List τ} {s : σ} {g : γ}
    (h : start a t = some g) :
    run (whileNext start body a) ⟨t :: ts, s⟩ =
      (run (body a g) ⟨ts, s⟩ >>= fun r => run (whileNext start body r.1) r.2) := by
  rw [run, whileNext]
  simp only [h, run]
  cases body a g ⟨ts, s⟩ with
  | error e => rfl
  | ok r =>
      change _ = run (whileNext start body r.value) r.cursor
      rw [run]
      cases hr : whileNext start body r.value r.cursor <;> simp only [hr]

end Loops

/-! ## Getting over a piece of the input -/

/-- Before tokens that may follow it, `p` gets over `ts` and goes on as `k`. -/
def Leads (p : TokenParser τ σ ε α) (follow : List τ → Prop) (ts : List τ)
    (k : TokenParser τ σ ε α) : Prop :=
  ∀ rest s, follow rest → run p ⟨ts ++ rest, s⟩ = run k ⟨rest, s⟩

def Reads (p : TokenParser τ σ ε α) (follow : List τ → Prop) (ts : List τ) (a : α) :
    Prop :=
  ∀ rest s, follow rest → run p ⟨ts ++ rest, s⟩ = .ok (a, ⟨rest, s⟩)

theorem Reads.mono {p : TokenParser τ σ ε α} {follow follow' : List τ → Prop}
    {ts : List τ} {a : α} (h : Reads p follow ts a)
    (imp : ∀ rest, follow' rest → follow rest) : Reads p follow' ts a :=
  fun rest s hrest => h rest s (imp rest hrest)

/-! ## The operators of one level -/

section LeftLevel

/-- After a first operand: every operator of the level takes one more operand. -/
def leftLoop (op? : τ → Option β) (build : β → α → α → α)
    (operand : TokenParser τ σ ε α) : α → TokenParser τ σ ε α :=
  whileNext (fun _ t => op? t) fun lhs op => do
    let rhs ← operand
    return build op lhs rhs

def leftLevel (op? : τ → Option β) (build : β → α → α → α)
    (operand : TokenParser τ σ ε α) : TokenParser τ σ ε α := do
  leftLoop op? build operand (← operand)

variable {op? : τ → Option β} {build : β → α → α → α} {operand : TokenParser τ σ ε α}
  {follow follow' : List τ → Prop} {ts us : List τ} {a b : α}

theorem leftLevel_leads_operand (h : Reads operand follow ts a) :
    Leads (leftLevel op? build operand) follow ts (leftLoop op? build operand a) := by
  intro rest s hrest
  rw [leftLevel, run_bind, h rest s hrest]
  rfl

theorem leftLevel_leads_operator {t : τ} {op : β}
    (lhs : Leads (leftLevel op? build operand) follow ts (leftLoop op? build operand a))
    (hop : op? t = some op) (rhs : Reads operand follow' us b)
    (hfollow : ∀ rest, follow (t :: us ++ rest)) :
    Leads (leftLevel op? build operand) follow' (ts ++ t :: us)
      (leftLoop op? build operand (build op a b)) := by
  intro rest s hrest
  rw [List.append_assoc, lhs _ s (hfollow rest), leftLoop, List.cons_append,
    run_whileNext_step hop, run_bind, rhs rest s hrest]
  rfl

theorem leftLevel_reads
    (h : Leads (leftLevel op? build operand) follow ts (leftLoop op? build operand a))
    (imp : ∀ rest, follow' rest → follow rest)
    (stop : ∀ rest, follow' rest → ∀ t ∈ rest.head?, op? t = none) :
    Reads (leftLevel op? build operand) follow' ts a := by
  intro rest s hrest
  rw [h rest s (imp rest hrest)]
  exact run_whileNext_stop (stop rest hrest)

end LeftLevel

end TokenParser
