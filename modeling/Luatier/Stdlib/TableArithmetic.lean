import Luatier.Stdlib.TableLib

/-!
# Index arithmetic of the table library

`table.move`, `table.concat` and `table.unpack` test their arguments before they
add anything up.  `table.insert` and `table.remove` form the index behind the
last element of any length they are told.
-/

namespace Luatier.TableLib

open Cells

variable {W α β : Type} {host : Host W}

/-! ## Programs without overflow -/

/-- The program does not overflow, and its results satisfy `Q`. -/
def Exact (m : LibM W α) (Q : α → Prop) : Prop :=
  ∀ p, Ends m p (fun a _ => Q a) fun e _ => e ≠ .overflow

variable {m : LibM W α} {Q : α → Prop}

theorem Exact.mono {Q' : α → Prop} (h : Exact m Q) (hQ : ∀ a, Q a → Q' a) : Exact m Q' :=
  fun p => (h p).mono (fun a _ => hQ a) fun _ _ => id

theorem Exact.bind {R : β → Prop} {f : α → LibM W β} (h : Exact m Q)
    (hf : ∀ a, Q a → Exact (f a) R) : Exact (m >>= f) R :=
  fun p => (h p).bind fun a p' ha => hf a ha p'

theorem Exact.andThen {R : β → Prop} {f : α → LibM W β} (h : Exact m fun _ => True)
    (hf : ∀ a, Exact (f a) R) : Exact (m >>= f) R :=
  h.bind fun a _ => hf a

theorem exact_pure {a : α} (h : Q a) : Exact (pure a : LibM W α) Q := fun _ => ends_pure h

theorem exact_panic (text : String) : Exact (panic text : LibM W α) Q :=
  fun _ => ends_throw fun h => nomatch h

theorem exact_panic_bind (text : String) (f : β → LibM W α) :
    Exact ((panic text : LibM W β) >>= f) Q :=
  (exact_panic (Q := fun _ => False) text).bind fun _ => False.elim

theorem exact_ite {c : Prop} [Decidable c] {m' : LibM W α} (h : c → Exact m Q)
    (h' : ¬ c → Exact m' Q) : Exact (if c then m else m') Q :=
  fun p => ends_ite (fun hc => h hc p) fun hc => h' hc p

theorem exact_add {a b : Int64} (hlow : -(2 ^ 63) ≤ a.toInt + b.toInt)
    (hhigh : a.toInt + b.toInt < 2 ^ 63) :
    Exact (add a b : LibM W Int64) fun c => c.toInt = a.toInt + b.toInt := by
  intro p
  rw [add, int64, if_pos ⟨hlow, hhigh⟩]
  exact ends_pure (Int64.toInt_ofInt_of_le (by omega) (by omega))

theorem exact_sub {a b : Int64} (hlow : -(2 ^ 63) ≤ a.toInt - b.toInt)
    (hhigh : a.toInt - b.toInt < 2 ^ 63) :
    Exact (sub a b : LibM W Int64) fun c => c.toInt = a.toInt - b.toInt := by
  intro p
  rw [sub, int64, if_pos ⟨hlow, hhigh⟩]
  exact ends_pure (Int64.toInt_ofInt_of_le (by omega) (by omega))

theorem exact_inState (f : State → α) : Exact (inState f : LibM W α) fun _ => True :=
  fun _ => trivial

theorem exact_record (e : LibEvent) : Exact (record e : LibM W Unit) fun _ => True :=
  fun _ => trivial

theorem exact_getMetamethod (v : TValue) (name : String) :
    Exact (getMetamethod v name : LibM W TValue) fun _ => True :=
  fun _ => trivial

theorem exact_call (mm : TValue) (args : List TValue) :
    Exact (call host mm args) fun _ => True := by
  intro p
  unfold Ends call
  cases host.call mm args (p.L, p.world) with
  | ok out s => trivial
  | error e s => exact fun h => nomatch h

theorem exact_access (result : TValue → α) (run : State → Access α) :
    Exact (access host result run) fun _ => True := by
  intro p
  unfold Ends access
  cases run p.L with
  | done r L => trivial
  | call mm args nout L =>
      exact ((exact_call mm args).bind (f := fun v => pure (result v)) (R := fun _ => True)
        fun _ _ => exact_pure trivial) _
  | raised e L => exact fun h => nomatch h

theorem exact_geti (t : TValue) (i : Int64) : Exact (geti host t i) fun _ => True :=
  (exact_record _).andThen fun _ => exact_access _ _

theorem exact_seti (t : TValue) (i : Int64) (v : TValue) :
    Exact (seti host t i v) fun _ => True :=
  (exact_record _).andThen fun _ => exact_access _ _

/-! ## Arguments and lengths -/

theorem exact_stackAt (args : List TValue) (idx : Nat) :
    Exact (stackAt args idx : LibM W TValue) fun v => args[idx - 1]? = some v := by
  unfold stackAt
  cases args[idx - 1]? with
  | none => exact exact_panic _
  | some v => exact exact_pure rfl

theorem exact_checkAny (args : List TValue) (idx : Nat) (what : String) :
    Exact (checkAny args idx what : LibM W Unit) fun _ => True :=
  exact_ite (fun _ => exact_panic _) fun _ => exact_pure trivial

theorem exact_checkString (args : List TValue) (idx : Nat) :
    Exact (checkString args idx : LibM W Addr) fun _ => True := by
  apply (exact_checkAny args idx _).andThen
  intro _
  apply (exact_stackAt args idx).bind
  intro v _
  cases v with
  | string s => exact exact_pure trivial
  | _ => exact exact_panic _

theorem exact_floatToInt64 {w : Binary64.Word} {text : String} :
    Exact (match floatToInt64? w with
      | some n => pure n
      | none => panic text : LibM W Int64) fun _ => True := by
  cases floatToInt64? w with
  | none => exact exact_panic _
  | some n => exact exact_pure trivial

theorem exact_argTypeError (idx : Nat) (expected : String) (v : TValue) :
    Exact (argTypeError host idx expected v : LibM W α) fun _ => True :=
  (exact_inState _).andThen fun _ => exact_panic _

theorem exact_fromNumber (idx : Nat) (v n : TValue) :
    Exact (fromNumber host idx v n) fun _ => True := by
  cases n with
  | integer n => exact exact_pure trivial
  | number w => exact exact_floatToInt64
  | _ => exact exact_argTypeError idx _ v

theorem exact_checkInt (args : List TValue) (idx : Nat) :
    Exact (checkInt host args idx) fun _ => True := by
  apply (exact_checkAny args idx _).andThen
  intro _
  apply (exact_stackAt args idx).bind
  intro v _
  apply exact_ite
  · intro _
    exact exact_fromNumber idx v v
  · intro _
    apply (exact_inState _).andThen
    intro n
    cases n with
    | none => exact exact_argTypeError idx _ v
    | some n => exact exact_fromNumber idx v n

theorem exact_optInt (args : List TValue) (idx : Nat) (default : Int64) :
    Exact (optInt host args idx default) fun _ => True := by
  apply exact_ite
  · intro _
    exact exact_pure trivial
  · intro _
    apply (exact_stackAt args idx).bind
    intro v _
    apply exact_ite
    · intro _
      exact exact_pure trivial
    · intro _
      exact exact_checkInt args idx

theorem exact_checkTable (args : List TValue) :
    Exact (checkTable args : LibM W TValue) fun t => args[0]? = some t ∧ t.isTable := by
  apply (exact_stackAt args 1).bind
  intro t ht
  apply exact_ite
  · intro htable
    exact exact_pure ⟨ht, htable⟩
  · intro _
    exact exact_panic _

theorem exact_metaLen (v : TValue) : Exact (metaLen host v) fun _ => True := by
  have hlen : ∀ other : LibM W TValue, Exact other (fun _ => True) →
      Exact (do
        let mm ← getMetamethod v "__len"
        if mm.isFunction then call host mm [v] else other) fun _ => True := by
    intro other hother
    apply (exact_getMetamethod v _).andThen
    intro mm
    apply exact_ite
    · intro _
      exact exact_call mm [v]
    · intro _
      exact hother
  cases v with
  | string s =>
      rw [metaLen]
      exact exact_inState _
  | table a => exact hlen _ (exact_inState _)
  | _ => exact hlen _ ((exact_inState _).andThen fun _ => exact_panic _)

theorem exact_auxGetn (t : TValue) : Exact (auxGetn host t) fun _ => True := by
  apply (exact_metaLen t).andThen
  intro len
  cases len with
  | integer n => exact exact_pure trivial
  | number w => exact exact_floatToInt64
  | _ => exact exact_panic _

/-! ## Loops -/

theorem exact_forUp {last : Int64} {body : Int64 → α → LibM W α} (i : Int64) (acc : α)
    (h : ∀ k acc, i ≤ k → k < last → Exact (body k acc) fun _ => True) :
    Exact (forUp last body i acc) fun _ => True := by
  induction hn : (last.toInt - i.toInt).toNat generalizing i acc with
  | zero =>
      rw [forUp, if_neg (by rw [Int64.lt_iff_toInt_lt]; omega)]
      exact exact_pure trivial
  | succ n ih =>
      have hlt : i < last := by
        rw [Int64.lt_iff_toInt_lt]
        omega
      have hnext := toInt_succ hlt
      have hlast := last.toInt_lt
      have hlow := i.le_toInt
      have hilast := Int64.lt_iff_toInt_lt.mp hlt
      rw [forUp, if_pos hlt]
      apply (h i acc (Int64.le_refl i) hlt).andThen
      intro acc
      apply (exact_add (by simp; omega) (by simp; omega)).bind
      intro _ _
      apply ih
      · intro k acc hk hklast
        refine h k acc ?_ hklast
        rw [Int64.le_iff_toInt_le] at hk ⊢
        omega
      · omega

theorem exact_forDown {bound : Int64} {body : Int64 → LibM W Unit} (i : Int64)
    (h : ∀ k, bound < k → k ≤ i → Exact (body k) fun _ => True) :
    Exact (forDown bound body i) fun _ => True := by
  induction hn : (i.toInt - bound.toInt).toNat generalizing i with
  | zero =>
      rw [forDown, if_neg (by rw [Int64.lt_iff_toInt_lt]; omega)]
      exact exact_pure trivial
  | succ n ih =>
      have hlt : bound < i := by
        rw [Int64.lt_iff_toInt_lt]
        omega
      have hnext := toInt_pred hlt
      have hlow := bound.le_toInt
      have hhigh := i.toInt_lt
      have hibound := Int64.lt_iff_toInt_lt.mp hlt
      rw [forDown, if_pos hlt]
      apply (h i hlt (Int64.le_refl i)).andThen
      intro _
      apply (exact_sub (by simp; omega) (by simp; omega)).bind
      intro _ _
      apply ih
      · intro k hk hki
        refine h k hk ?_
        rw [Int64.le_iff_toInt_le] at hki ⊢
        omega
      · omega

/-! ## The functions that test first -/

theorem exact_concatAddfield (t : TValue) (i : Int64) (out : List UInt8) :
    Exact (concatAddfield host t i out) fun _ => True := by
  apply (exact_geti t i).andThen
  intro v
  have hnumber : Exact (do
      if v.isNumber then return out ++ host.numberToString v
      panic ("invalid value (" ++ typeNameInConcat v ++ ") at index " ++ toString i ++
        " in table for 'concat'") : LibM W (List UInt8)) fun _ => True := by
    apply exact_ite
    · intro _
      exact exact_pure trivial
    · intro _
      exact exact_panic _
  cases v with
  | string s => exact (exact_inState _).andThen fun _ => exact_pure trivial
  | _ => exact hnumber

theorem exact_separator (args : List TValue) :
    Exact (separator args : LibM W (List UInt8)) fun _ => True := by
  apply exact_ite
  · intro _
    exact exact_pure trivial
  · intro _
    apply (exact_stackAt args 2).bind
    intro v _
    apply exact_ite
    · intro _
      exact exact_pure trivial
    · intro _
      exact (exact_checkString args 2).andThen fun _ => exact_inState _

theorem exact_tabConcat (args : List TValue) : Exact (tabConcat host args) fun _ => True := by
  apply (exact_checkTable args).bind
  intro t _
  apply (exact_separator args).andThen
  intro sep
  apply (exact_optInt args 3 1).andThen
  intro i
  apply (exact_auxGetn t).andThen
  intro n
  apply (exact_optInt args 4 n).andThen
  intro last
  apply (exact_forUp i [] fun k out _ _ => ?_).andThen
  · rintro ⟨i, out⟩
    apply exact_ite
    · intro _
      exact exact_concatAddfield t i out
    · intro _
      exact exact_pure trivial
  · exact (exact_concatAddfield t k out).andThen fun _ => exact_pure trivial

theorem exact_tabUnpack (args : List TValue) : Exact (tabUnpack host args) fun _ => True := by
  apply (exact_checkTable args).bind
  intro t _
  apply (exact_optInt args 2 1).andThen
  intro i
  apply (exact_auxGetn t).andThen
  intro size
  apply (exact_optInt args 3 size).andThen
  intro j
  apply exact_ite
  · intro _
    exact exact_pure trivial
  · intro _
    apply exact_ite
    · intro _
      exact exact_panic_bind _ _
    · intro _
      apply (exact_forUp i [] fun k out _ _ => ?_).andThen
      · rintro ⟨k, out⟩
        exact (exact_geti t j).andThen fun _ => exact_pure trivial
      · exact (exact_geti t k).andThen fun _ => exact_pure trivial

theorem toNat_sub_toUInt64 {e f : Int64} (h : f ≤ e) :
    ((e.toUInt64 - f.toUInt64).toNat : Int) = e.toInt - f.toInt := by
  have hle := Int64.le_iff_toInt_le.mp h
  have hsub : (e.toUInt64 - f.toUInt64).toNat =
      (2 ^ 64 - f.toBitVec.toNat + e.toBitVec.toNat) % 2 ^ 64 := BitVec.toNat_sub _ _
  have he : e.toInt = _ := BitVec.toInt_eq_toNat_cond e.toBitVec
  have hf : f.toInt = _ := BitVec.toInt_eq_toNat_cond f.toBitVec
  have heLt := e.toBitVec.isLt
  have hfLt := f.toBitVec.isLt
  rw [hsub]
  split at he <;> split at hf <;> omega

theorem exact_moveDest (args : List TValue) (a : TValue) :
    Exact (moveDest args a : LibM W TValue) fun _ => True := by
  apply exact_ite
  · intro _
    exact exact_pure trivial
  · intro _
    apply (exact_stackAt args 5).bind
    intro dest _
    apply exact_ite
    · intro _
      exact exact_pure trivial
    · intro _
      exact exact_panic _

theorem exact_moveElement (a dest : TValue) {f tpos i : Int64}
    (hflow : -(2 ^ 63) ≤ f.toInt + i.toInt) (hfhigh : f.toInt + i.toInt < 2 ^ 63)
    (htlow : -(2 ^ 63) ≤ tpos.toInt + i.toInt) (hthigh : tpos.toInt + i.toInt < 2 ^ 63) :
    Exact (moveElement host a dest f tpos i) fun _ => True := by
  apply (exact_add htlow hthigh).bind
  intro k _
  apply (exact_add hflow hfhigh).bind
  intro j _
  apply (exact_geti a j).andThen
  intro v
  exact exact_seti dest k v

theorem exact_moveRange (a dest : TValue) {f e tpos : Int64} (hle : f ≤ e) :
    Exact (moveRange host a dest f e tpos) fun _ => True := by
  have hfe := Int64.le_iff_toInt_le.mp hle
  have hflow := f.le_toInt
  have helt := e.toInt_lt
  have htlow := tpos.le_toInt
  have hone : (1 : Int64).toInt = 1 := rfl
  have hmax : Int64.maxValue.toInt = 2 ^ 63 - 1 := rfl
  apply exact_ite
  · intro _
    exact exact_panic_bind _ _
  · intro hguard
    have hcount : e.toInt - f.toInt + 1 < 2 ^ 63 := by
      by_cases hf : f ≤ 0
      · have hlt : ¬ Int64.maxValue.toUInt64 ≤ e.toUInt64 - f.toUInt64 := fun h => hguard ⟨hf, h⟩
        have hnat := toNat_sub_toUInt64 hle
        have hmaxNat : Int64.maxValue.toUInt64.toNat = 2 ^ 63 - 1 := rfl
        rw [UInt64.le_iff_toNat_le, hmaxNat] at hlt
        omega
      · have hpos : ¬ f.toInt ≤ 0 := fun h => hf (Int64.le_iff_toInt_le.mpr h)
        omega
    apply (exact_sub (by omega) (by omega)).bind
    intro d hd
    apply (exact_add (by omega) (by omega)).bind
    intro n hn
    apply (exact_sub (by omega) (by omega)).bind
    intro r hr
    apply (exact_add (by omega) (by omega)).bind
    intro r' hr'
    apply exact_ite
    · intro _
      exact exact_panic_bind _ _
    · intro hroom
      have hroom' : tpos.toInt ≤ r'.toInt := by
        have hnot : ¬ r'.toInt < tpos.toInt := fun h => hroom (Int64.lt_iff_toInt_lt.mpr h)
        omega
      have hround : ∀ i : Int64, 0 ≤ i.toInt → i.toInt < n.toInt →
          Exact (moveElement host a dest f tpos i) fun _ => True := by
        intro i hi hin
        exact exact_moveElement a dest (by omega) (by omega) (by omega) (by omega)
      apply exact_ite
      · intro _
        apply Exact.andThen (exact_forUp 0 () fun i _ hi hin => ?_)
        · intro _
          exact exact_pure trivial
        · exact hround i (Int64.le_iff_toInt_le.mp hi) (Int64.lt_iff_toInt_lt.mp hin)
      · intro _
        apply (exact_sub (by omega) (by omega)).bind
        intro last hlast
        apply exact_forDown
        intro i hi hin
        have hneg : (-1 : Int64).toInt = -1 := rfl
        have hi' := Int64.lt_iff_toInt_lt.mp hi
        have hin' := Int64.le_iff_toInt_le.mp hin
        exact hround i (by omega) (by omega)

theorem exact_tabMove (args : List TValue) : Exact (tabMove host args) fun _ => True := by
  apply (exact_checkTable args).bind
  intro a _
  apply (exact_checkInt args 2).andThen
  intro f
  apply (exact_checkInt args 3).andThen
  intro e
  apply (exact_checkInt args 4).andThen
  intro tpos
  apply (exact_moveDest args a).andThen
  intro dest
  apply exact_ite
  · intro hle
    exact (exact_moveRange a dest hle).andThen fun _ => exact_pure trivial
  · intro _
    exact exact_pure trivial

/-! ## The index behind the last element -/

inductive TableFunction where
  | concat | insert | remove | move | unpack
  deriving DecidableEq, Repr

namespace TableFunction

variable (host : Host W) (args : List TValue)

def run : TableFunction → LibM W Unit
  | concat => discard (tabConcat host args)
  | insert => discard (tabInsert host args)
  | remove => discard (tabRemove host args)
  | move => discard (tabMove host args)
  | unpack => discard (tabUnpack host args)

/-- The first argument is a table that reports the greatest length there is. -/
def ReportsMax (p p' : Process W) : Prop :=
  ∃ a, args[0]? = some (.table a) ∧ auxGetn host (.table a) p = .ok Int64.maxValue p'

def PassesMax (p : Process W) : TableFunction → Prop
  | insert => args.length = 2 ∧ (∃ p', ReportsMax host args p p') ∨
      args.length = 3 ∧ ∃ pos p₁ p₂, checkInt host args 2 p = .ok pos p₁ ∧
        ReportsMax host args p₁ p₂
  | remove => 2 ≤ args.length ∧ ∃ p₁ pos p₂, ReportsMax host args p p₁ ∧
      checkInt host args 2 p₁ = .ok pos p₂ ∧ 1 ≤ pos ∧ pos ≠ Int64.maxValue
  | _ => False

def Overflows (p : Process W) (g : TableFunction) : Prop :=
  ∃ p', g.run host args p = .error .overflow p'

end TableFunction

open TableFunction

variable {args : List TValue} {p p' : Process W}

abbrev OverflowsOnlyIf (C : Prop) (m : LibM W α) (p : Process W) : Prop :=
  Ends m p (fun _ _ => True) fun e _ => e = .overflow → C

theorem Exact.overflowsOnlyIf {C : Prop} (h : Exact m Q) : OverflowsOnlyIf C m p :=
  (h p).mono (fun _ _ _ => trivial) fun _ _ hne heq => absurd heq hne

theorem Exact.run (h : Exact m Q) (C : Prop) :
    Ends m p (fun a p' => Q a ∧ m p = .ok a p') fun e _ => e = .overflow → C :=
  ((h p).and ends_self).mono (fun _ _ => id) fun _ _ hne heq => absurd heq hne.1

theorem add_one_run (n : Int64) (p : Process W) :
    Ends (add n 1) p (fun c p' => p' = p ∧ c.toInt = n.toInt + 1) fun _ _ =>
      n = Int64.maxValue := by
  have hone : (1 : Int64).toInt = 1 := rfl
  have hmax : Int64.maxValue.toInt = 2 ^ 63 - 1 := rfl
  have hlow := n.le_toInt
  have hhigh := n.toInt_lt
  rw [add, int64]
  apply ends_ite
  · intro hrange
    exact ends_pure ⟨rfl, by rw [Int64.toInt_ofInt_of_le (by omega) (by omega), hone]⟩
  · intro hrange
    apply ends_throw
    apply Int64.toInt_inj.mp
    omega

theorem add_one_max (p : Process W) : add Int64.maxValue 1 p = .error .overflow p := rfl

theorem checkTable_run (args : List TValue) (p : Process W) :
    Ends (checkTable args) p
      (fun t p' => p' = p ∧ ∃ a, t = .table a ∧ args[0]? = some (.table a)) fun e _ =>
        e ≠ .overflow := by
  unfold checkTable stackAt
  cases args[0]? with
  | none => exact fun h => nomatch h
  | some t =>
      cases t with
      | table a => exact ⟨rfl, a, rfl, rfl⟩
      | _ => exact fun h => nomatch h

theorem checkTable_ok {a : Addr} (h : args[0]? = some (.table a)) (p : Process W) :
    checkTable args p = .ok (.table a) p := by
  unfold checkTable stackAt
  simp only [Nat.sub_self, h]
  rfl

theorem exact_insertAt (t : TValue) {pos e : Int64} (hpos : 1 ≤ pos) {v : LibM W TValue}
    (hv : Exact v fun _ => True) :
    Exact (do
      forDown pos (fun k => do seti host t k (← geti host t (← sub k 1))) e
      seti host t pos (← v)
      return ([] : List TValue)) fun _ => True := by
  have hone : (1 : Int64).toInt = 1 := rfl
  have hpos' := Int64.le_iff_toInt_le.mp hpos
  apply (exact_forDown e fun k hk _ => ?_).andThen
  · intro _
    apply hv.andThen
    intro v
    exact (exact_seti t pos v).andThen fun _ => exact_pure trivial
  · have hk' := Int64.lt_iff_toInt_lt.mp hk
    have hlt := k.toInt_lt
    apply (exact_sub (by omega) (by omega)).bind
    intro j _
    apply (exact_geti t j).andThen
    intro v
    exact exact_seti t k v

theorem tabInsert_overflow :
    Ends (tabInsert host args) p (fun _ _ => True) fun e _ =>
      e = .overflow → PassesMax host args p insert := by
  apply ((checkTable_run args p).mono (fun _ _ => id) fun _ _ hne heq => absurd heq hne).bind
  rintro _ p' ⟨rfl, a, rfl, hargs⟩
  apply ends_ite
  · intro htwo
    apply ((exact_auxGetn (.table a)).run _).bind
    rintro n p' ⟨-, hn⟩
    apply ((add_one_run n p').mono (fun _ _ => id) ?_).bind
    · rintro pos p'' -
      apply Exact.overflowsOnlyIf (Q := fun _ => True)
      apply (exact_stackAt args 2).bind
      intro v _
      exact (exact_seti _ _ v).andThen fun _ => exact_pure trivial
    · rintro e p'' rfl -
      exact Or.inl ⟨htwo, p', a, hargs, hn⟩
  · intro _
    apply ends_ite
    · intro hthree
      apply ((exact_checkInt args 2).run _).bind
      rintro pos p₁ ⟨-, hpos⟩
      apply ((exact_auxGetn (.table a)).run _).bind
      rintro n p₂ ⟨-, hn⟩
      apply ((add_one_run n p₂).mono (fun _ _ => id) ?_).bind
      · rintro e p₃ -
        apply Exact.overflowsOnlyIf (Q := fun _ => True)
        apply exact_ite
        · intro _
          exact exact_panic_bind _ _
        · intro hrange
          have hle : 1 ≤ pos := by
            rw [Int64.le_iff_toInt_le]
            have hnot : ¬ pos < 1 := fun h => hrange (Or.inl h)
            rw [Int64.lt_iff_toInt_lt] at hnot
            omega
          exact exact_insertAt (.table a) hle ((exact_stackAt args 3).mono fun _ _ => trivial)
      · rintro e p₃ rfl -
        exact Or.inr ⟨hthree, pos, p₁, p₂, hpos, a, hargs, hn⟩
    · intro _
      exact (exact_panic (Q := fun _ => True) _).overflowsOnlyIf

theorem overflows_insert (h : PassesMax host args p insert) :
    ∃ p', tabInsert host args p = .error .overflow p' := by
  rcases h with ⟨htwo, p', a, hargs, hn⟩ | ⟨hthree, pos, p₁, p₂, hpos, a, hargs, hn⟩
  · refine ⟨p', ?_⟩
    rw [tabInsert, bind_of_ok (checkTable_ok hargs p), if_pos htwo, bind_of_ok hn]
    exact bind_of_error (add_one_max p')
  · refine ⟨p₂, ?_⟩
    rw [tabInsert, bind_of_ok (checkTable_ok hargs p), if_neg (by omega), if_pos hthree,
      bind_of_ok hpos, bind_of_ok hn]
    exact bind_of_error (add_one_max p₂)

theorem exact_removeAt (t : TValue) (size pos : Int64) :
    Exact (do
      let v ← geti host t pos
      discard (forUp size (fun k _ => do seti host t k (← geti host t (← add k 1))) pos ())
      eraseLast host t size pos
      return [v]) fun _ => True := by
  apply (exact_geti t pos).andThen
  intro v
  have hround : ∀ k : Int64, k < size →
      Exact (do seti host t k (← geti host t (← add k 1))) fun _ => True := by
    intro k hk
    have hone : (1 : Int64).toInt = 1 := rfl
    have hk' := Int64.lt_iff_toInt_lt.mp hk
    have hlow := k.le_toInt
    have hlt := size.toInt_lt
    apply (exact_add (by omega) (by omega)).bind
    intro j _
    apply (exact_geti t j).andThen
    intro v
    exact exact_seti t k v
  have hloop : Exact (discard (forUp size
      (fun k _ => do seti host t k (← geti host t (← add k 1))) pos ())) fun _ => True :=
    (exact_forUp pos () fun k _ _ hk => hround k hk).andThen fun _ => exact_pure trivial
  apply hloop.andThen
  intro _
  have hlast : Exact (eraseLast host t size pos) fun _ => True :=
    exact_ite (fun _ => exact_seti t size _) fun _ =>
      exact_ite (fun _ => exact_seti t 0 _) fun _ => exact_pure trivial
  exact hlast.andThen fun _ => exact_pure trivial

theorem removePosition_overflow (n : Int64) :
    Ends (removePosition host args n) p (fun _ _ => True) fun e _ => e = .overflow →
      n = Int64.maxValue ∧ 2 ≤ args.length ∧ ∃ pos p', checkInt host args 2 p = .ok pos p' ∧
        1 ≤ pos ∧ pos ≠ n := by
  have hrest : ∀ pos p', (pos ≠ n → 1 ≤ pos → 2 ≤ args.length ∧
      checkInt host args 2 p = .ok pos p') → Ends (do
        if pos = n then return pos
        if pos < 1 then panic "position out of bounds"
        if (← add n 1) < pos then panic "position out of bounds"
        return pos) p' (fun _ _ => True) fun e _ => e = .overflow →
      n = Int64.maxValue ∧ 2 ≤ args.length ∧ ∃ pos p', checkInt host args 2 p = .ok pos p' ∧
        1 ≤ pos ∧ pos ≠ n := by
    intro pos p' hpos
    apply ends_ite
    · intro _
      exact (exact_pure (Q := fun _ => True) trivial).overflowsOnlyIf
    · intro hne
      apply ends_ite
      · intro _
        exact (exact_panic_bind (Q := fun _ => True) _ _).overflowsOnlyIf
      · intro hnot
        have hle : 1 ≤ pos := by
          rw [Int64.lt_iff_toInt_lt] at hnot
          rw [Int64.le_iff_toInt_le]
          omega
        apply ((add_one_run n p').mono (fun _ _ => id) ?_).bind
        · rintro e p'' -
          apply Exact.overflowsOnlyIf (Q := fun _ => True)
          apply exact_ite
          · intro _
            exact exact_panic_bind _ _
          · intro _
            exact exact_pure trivial
        · intro e p'' hmax _
          obtain ⟨hargs, hrun⟩ := hpos hne hle
          exact ⟨hmax, hargs, pos, p', hrun, hle, hne⟩
  apply ends_ite
  · intro htwo
    apply ((exact_checkInt args 2).run _).bind
    rintro pos p' ⟨-, hrun⟩
    exact hrest pos p' fun _ _ => ⟨htwo, hrun⟩
  · intro _
    exact hrest n p fun hne => absurd rfl hne

theorem tabRemove_overflow :
    Ends (tabRemove host args) p (fun _ _ => True) fun e _ =>
      e = .overflow → PassesMax host args p remove := by
  apply ((checkTable_run args p).mono (fun _ _ => id) fun _ _ hne heq => absurd heq hne).bind
  rintro _ p' ⟨rfl, a, rfl, hargs⟩
  apply ((exact_auxGetn (.table a)).run _).bind
  rintro n p₁ ⟨-, hn⟩
  apply ((removePosition_overflow n).mono (fun _ _ => id) ?_).bind
  · rintro pos p₂ -
    exact (exact_removeAt (.table a) n pos).overflowsOnlyIf
  · intro e p₂ hover heq
    obtain ⟨rfl, htwo, pos, p', hrun, hle, hne⟩ := hover heq
    exact ⟨htwo, p₁, pos, p', ⟨a, hargs, hn⟩, hrun, hle, hne⟩

theorem overflows_remove (h : PassesMax host args p remove) :
    ∃ p', tabRemove host args p = .error .overflow p' := by
  obtain ⟨htwo, p₁, pos, p₂, ⟨a, hargs, hn⟩, hrun, hle, hne⟩ := h
  have hnot : ¬ pos < 1 := by
    rw [Int64.le_iff_toInt_le] at hle
    rw [Int64.lt_iff_toInt_lt]
    omega
  have hposition : removePosition host args Int64.maxValue p₁ = .error .overflow p₂ := by
    rw [removePosition, if_pos htwo, bind_of_ok hrun]
    simp only [if_neg hne, if_neg hnot]
    exact bind_of_error (add_one_max p₂)
  refine ⟨p₂, ?_⟩
  rw [tabRemove, bind_of_ok (checkTable_ok hargs p), bind_of_ok hn]
  exact bind_of_error hposition

/-! ## All functions -/

theorem run_discard {m : LibM W α} {e : Fault} :
    (∃ p', discard m p = .error e p') ↔ ∃ p', m p = .error e p' := by
  show (∃ p', EStateM.bind m (fun _ => pure ()) p = .error e p') ↔ _
  unfold EStateM.bind
  cases m p with
  | ok a p' => simp [pure, EStateM.pure]
  | error e' p' => simp

theorem not_overflows_of_exact (h : Exact m Q) : ¬ ∃ p', m p = .error .overflow p' := by
  rintro ⟨p', hp'⟩
  have hends := h p
  unfold Ends at hends
  rw [hp'] at hends
  exact hends rfl

theorem overflow_of_ends {C : Prop}
    (h : Ends m p (fun _ _ => True) fun e _ => e = .overflow → C) :
    (∃ p', m p = .error .overflow p') → C := by
  rintro ⟨p', hp'⟩
  unfold Ends at h
  rw [hp'] at h
  exact h rfl

/-- Sums and differences are exact unless one is added to the greatest length. -/
theorem exact_iff_not_passesMax (host : Host W) (g : TableFunction) (args : List TValue)
    (p : Process W) : ¬ g.Overflows host args p ↔ ¬ g.PassesMax host args p := by
  apply not_congr
  cases g with
  | concat =>
      rw [Overflows, TableFunction.run, run_discard]
      exact iff_of_false (not_overflows_of_exact (exact_tabConcat args)) id
  | insert =>
      rw [Overflows, TableFunction.run, run_discard]
      exact ⟨overflow_of_ends tabInsert_overflow, overflows_insert⟩
  | remove =>
      rw [Overflows, TableFunction.run, run_discard]
      exact ⟨overflow_of_ends tabRemove_overflow, overflows_remove⟩
  | move =>
      rw [Overflows, TableFunction.run, run_discard]
      exact iff_of_false (not_overflows_of_exact (exact_tabMove args)) id
  | unpack =>
      rw [Overflows, TableFunction.run, run_discard]
      exact iff_of_false (not_overflows_of_exact (exact_tabUnpack args)) id

/-! ## A length of `math.maxinteger` -/

/-- A program around the library in which every call returns the same value. -/
def answering (v : TValue) : Host Unit where
  site := ⟨fun _ _ => "", fun _ text => text⟩
  raw := Chunk.noRaw
  call _ _ s := .ok v s
  tryToNumber _ v := if v.isNumber then some v else none
  numberToString _ := []
  argTypeError _ _ _ _ := "bad argument"
  randomizePivot w := (0, w)

/-- Table 1 has metatable 2, whose `__len` is function 4. -/
def reportingState : State where
  tmNames := [none, none, none, none, some 3]
  heap :=
    [(4, .closure {}),
      (3, .string ⟨"__len".toUTF8.toList, 0⟩),
      (2, .table { hash := [⟨.string 3, .function 4, true⟩] }),
      (1, .table { hash := [{}], metatable := some 2 })]

theorem insert_overflows : Overflows (answering (.integer Int64.maxValue))
    [.table 1, .boolean true] ⟨reportingState, (), []⟩ insert := by
  apply run_discard.mpr
  exact overflows_insert (Or.inl ⟨rfl, _, 1, rfl, rfl⟩)

end Luatier.TableLib
