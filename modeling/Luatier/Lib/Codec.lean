import Luatier.Lib.StateFrame
import Mathlib.Tactic.Ring

/-!
# Bytes, written and read

Numbers as little-endian bytes, and readers that take what they need from the
front of a byte sequence.  `Reads r bs x` says that `r` takes exactly `bs`,
whatever follows, and answers with `x`; it composes along `bind`.
-/

universe u

namespace Codec

/-! ## Little-endian numbers -/

def bytes : Nat → Nat → List UInt8
  | 0, _ => []
  | width + 1, n => UInt8.ofNat n :: bytes width (n / 256)

def value : List UInt8 → Nat
  | [] => 0
  | b :: bs => b.toNat + 256 * value bs

@[simp] theorem length_bytes (width n : Nat) : (bytes width n).length = width := by
  induction width generalizing n with
  | zero => rfl
  | succ width ih => rw [bytes, List.length_cons, ih]

theorem value_lt (bs : List UInt8) : value bs < 256 ^ bs.length := by
  induction bs with
  | nil => exact Nat.one_pos
  | cons b bs ih =>
      have hb := b.toNat_lt
      rw [value, List.length_cons, pow_succ]
      omega

theorem value_bytes (width n : Nat) : value (bytes width n) = n % 256 ^ width := by
  induction width generalizing n with
  | zero => rw [pow_zero, Nat.mod_one]; rfl
  | succ width ih =>
      rw [bytes, value, ih, pow_succ', Nat.mod_mul]
      rfl

theorem value_bytes_of_lt {width n : Nat} (h : n < 256 ^ width) :
    value (bytes width n) = n := by
  rw [value_bytes, Nat.mod_eq_of_lt h]

theorem bytes_eq_map (n x : Nat) :
    bytes n x = (List.range n).map fun i => UInt8.ofNat (x / 256 ^ i) := by
  induction n generalizing x with
  | zero => rfl
  | succ n ih =>
      rw [bytes, ih, List.range_succ_eq_map, List.map_cons, List.map_map, pow_zero,
        Nat.div_one]
      congr 2
      funext i
      rw [Function.comp_apply, Nat.div_div_eq_div_mul, pow_succ']

theorem bytes_append (v w n : Nat) :
    bytes (v + w) n = bytes v n ++ bytes w (n / 256 ^ v) := by
  induction v generalizing n with
  | zero => rw [Nat.zero_add, pow_zero, Nat.div_one]; rfl
  | succ v ih =>
      rw [Nat.succ_add, bytes, ih, bytes, Nat.div_div_eq_div_mul, pow_succ']
      rfl

/-! ## Readers -/

variable {β α γ ε : Type u}

/-- A reader takes symbols from the front of its input, or fails. -/
abbrev Reader (β ε : Type u) := StateT (List β) (Except ε)

namespace Reader

def Reads (r : Reader β ε α) (bs : List β) (x : α) : Prop :=
  ∀ rest, r (bs ++ rest) = .ok (x, rest)

theorem Reads.run {r : Reader β ε α} {bs : List β} {x : α} (h : Reads r bs x) :
    r bs = .ok (x, []) := by
  have := h []
  rwa [List.append_nil] at this

theorem reads_pure (x : α) : Reads (pure x : Reader β ε α) [] x := fun _ => rfl

theorem Reads.bind {r : Reader β ε α} {f : α → Reader β ε γ} {bs cs : List β} {x : α}
    {y : γ} (h : Reads r bs x) (hf : Reads (f x) cs y) :
    Reads (r >>= f) (bs ++ cs) y := by
  intro rest
  refine StateFrame.bind_ok.mpr ⟨x, cs ++ rest, ?_, hf rest⟩
  rw [List.append_assoc]
  exact h (cs ++ rest)

theorem Reads.bind_silent {r : Reader β ε α} {f : α → Reader β ε γ} {bs : List β} {x : α}
    {y : γ} (h : Reads r bs x) (hf : Reads (f x) [] y) : Reads (r >>= f) bs y := by
  have := h.bind hf
  rwa [List.append_nil] at this

theorem Reads.bind_pure {r : Reader β ε α} {f : α → γ} {bs : List β} {x : α}
    (h : Reads r bs x) : Reads (r >>= fun a => pure (f a)) bs (f x) :=
  h.bind_silent (reads_pure (f x))

theorem Reads.of_eq {r : Reader β ε α} {bs bs' : List β} {x x' : α} (h : Reads r bs x)
    (hbs : bs' = bs) (hx : x' = x) : Reads r bs' x' := by
  rw [hbs, hx]
  exact h

def times (r : Reader β ε α) : Nat → Reader β ε (List α)
  | 0 => pure []
  | n + 1 => do
      let x ← r
      let xs ← times r n
      pure (x :: xs)

theorem reads_times {δ : Type u} {r : Reader β ε α} {write : δ → List β} {f : δ → α}
    (xs : List δ) (h : ∀ x ∈ xs, Reads r (write x) (f x)) :
    Reads (times r xs.length) (xs.flatMap write) (xs.map f) := by
  induction xs with
  | nil => exact reads_pure []
  | cons x xs ih =>
      have hx := h x (List.mem_cons_self ..)
      have hxs := ih fun y hy => h y (List.mem_cons_of_mem x hy)
      exact hx.bind hxs.bind_pure

/-- What holds of every answer of a reader. -/
def Answers (r : Reader β ε α) (P : α → Prop) : Prop :=
  ∀ s x s', r s = .ok (x, s') → P x

theorem answers_pure {x : α} {P : α → Prop} (h : P x) :
    Answers (pure x : Reader β ε α) P := by
  intro s y s' hy
  cases hy
  exact h

theorem Answers.bind {r : Reader β ε α} {f : α → Reader β ε γ} {P : α → Prop}
    {Q : γ → Prop} (h : Answers r P) (hf : ∀ x, P x → Answers (f x) Q) :
    Answers (r >>= f) Q := by
  intro s y s' hy
  obtain ⟨x, t, hx, hy⟩ := StateFrame.bind_ok.mp hy
  exact hf x (h s x t hx) t y s' hy

theorem answers_any (r : Reader β ε α) : Answers r fun _ => True := fun _ _ _ _ => trivial

theorem Answers.andThen {r : Reader β ε α} {f : α → Reader β ε γ} {Q : γ → Prop}
    (hf : ∀ x, Answers (f x) Q) : Answers (r >>= f) Q :=
  (answers_any r).bind fun x _ => hf x

theorem answers_times {r : Reader β ε α} {P : α → Prop} (h : Answers r P) (n : Nat) :
    Answers (times r n) fun xs => xs.length = n ∧ ∀ x ∈ xs, P x := by
  induction n with
  | zero => exact answers_pure ⟨rfl, fun _ hx => (nomatch hx)⟩
  | succ n ih =>
      refine h.bind fun x hx => ih.bind fun xs hxs => answers_pure ⟨?_, ?_⟩
      · rw [List.length_cons, hxs.1]
      · intro y hy
        rcases List.mem_cons.mp hy with rfl | hy
        · exact hx
        · exact hxs.2 y hy

/-! ## Input that was cut off -/

/-- An answer depends on what was taken and on nothing behind it, and so does an error,
unless it is `short`, for too little input. -/
structure Streams (short : ε) (r : Reader β ε α) : Prop where
  taken : ∀ {s x s'}, r s = .ok (x, s') → ∃ bs, s = bs ++ s' ∧ Reads r bs x
  failed : ∀ {s e}, r s = .error e → e = short ∨ ∀ rest, r (s ++ rest) = .error e

variable {short : ε} {r r' : Reader β ε α}

theorem streams_pure (x : α) : Streams short (pure x : Reader β ε α) where
  taken {s y s'} h := by
    cases h
    exact ⟨[], rfl, reads_pure x⟩
  failed h := nomatch h

theorem streams_throw (e : ε) : Streams short (throw e : Reader β ε α) where
  taken h := nomatch h
  failed {s e'} h := by
    cases h
    exact .inr fun _ => rfl

theorem bind_error {f : α → Reader β ε γ} {s : List β} {e : ε} (h : (r >>= f) s = .error e) :
    r s = .error e ∨ ∃ x s', r s = .ok (x, s') ∧ f x s' = .error e := by
  change (r s).bind (fun p => f p.1 p.2) = .error e at h
  cases hr : r s with
  | error e' =>
      rw [hr] at h
      cases h
      exact .inl rfl
  | ok p =>
      rw [hr] at h
      exact .inr ⟨p.1, p.2, rfl, h⟩

theorem Streams.bind {f : α → Reader β ε γ} (h : Streams short r)
    (hf : ∀ x, Streams short (f x)) : Streams short (r >>= f) where
  taken {s y s''} hy := by
    obtain ⟨x, s', hx, hfx⟩ := StateFrame.bind_ok.mp hy
    obtain ⟨bs, rfl, hbs⟩ := h.taken hx
    obtain ⟨cs, rfl, hcs⟩ := (hf x).taken hfx
    exact ⟨bs ++ cs, (List.append_assoc ..).symm, hbs.bind hcs⟩
  failed {s e} he := by
    rcases bind_error he with hr | ⟨x, s', hx, hfx⟩
    · refine (h.failed hr).imp_right fun hall rest => ?_
      show (r (s ++ rest)).bind _ = _
      rw [hall rest]
      rfl
    · obtain ⟨bs, rfl, hbs⟩ := h.taken hx
      refine ((hf x).failed hfx).imp_right fun hall rest => ?_
      show (r (bs ++ s' ++ rest)).bind _ = _
      rw [List.append_assoc, hbs (s' ++ rest)]
      exact hall rest

theorem streams_times (h : Streams short r) (n : Nat) : Streams short (times r n) := by
  induction n with
  | zero => exact streams_pure []
  | succ n ih => exact h.bind fun x => ih.bind fun xs => streams_pure (x :: xs)

theorem Streams.cut {bs : List β} {x : α} (h : Streams short r) (hreads : Reads r bs x)
    {s rest : List β} (hbs : bs = s ++ rest) (hrest : rest ≠ []) : r s = .error short := by
  have hrun := hreads.run
  cases hs : r s with
  | ok p =>
      obtain ⟨y, s'⟩ := p
      obtain ⟨cs, hcs, hread⟩ := h.taken hs
      rw [hbs, hcs, List.append_assoc, hread (s' ++ rest)] at hrun
      have hempty := congrArg (fun q => q.2) (Except.ok.inj hrun)
      simp [hrest] at hempty
  | error e =>
      rcases h.failed hs with rfl | hall
      · rfl
      · rw [hbs, hall rest] at hrun
        exact nomatch hrun

theorem times_congr (h : Streams short r) (n : Nat) (s : List β)
    (hsame : ∀ s', s'.length ≤ s.length → r s' = r' s') : times r n s = times r' n s := by
  induction n generalizing s with
  | zero => rfl
  | succ n ih =>
      have hs := hsame s le_rfl
      show (r s).bind _ = (r' s).bind _
      rw [← hs]
      cases hr : r s with
      | error e => rfl
      | ok p =>
          obtain ⟨x, s'⟩ := p
          obtain ⟨bs, hbs, -⟩ := h.taken hr
          have hrest := ih s' fun s'' hs' => hsame s'' (by
            rw [hbs, List.length_append]
            omega)
          show (times r n s').bind _ = (times r' n s').bind _
          rw [hrest]

end Reader

end Codec
