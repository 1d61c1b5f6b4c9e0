import Luatier.Stdlib.TableArithmetic
import Luatier.Stdlib.TableCells

/-!
# Copying elements

`table.move` copies a range as if all at once.  `table.insert` and `table.remove`
copy the elements behind a position one place up or down.
-/

namespace Luatier.TableLib

open Cells Table

variable {W : Type} {host : Host W} {p : Process W} {a : Addr}

/-! ## The loops as counted loops -/

def offset (i : Int64) (k : Nat) : Int64 := Int64.ofInt (i.toInt + k)

theorem toInt_offset {i : Int64} {k : Nat} (h : i.toInt + k < 2 ^ 63) :
    (offset i k).toInt = i.toInt + k :=
  Int64.toInt_ofInt_of_le (by have := i.le_toInt; omega) (by omega)

theorem offset_zero (i : Int64) : offset i 0 = i := by
  rw [offset, Int.natCast_zero, Int.add_zero, Int64.ofInt_toInt]

theorem add_eq {i j : Int64} {k : Nat} (hj : j.toInt = k) (h : i.toInt + k < 2 ^ 63) :
    (add i j : LibM W Int64) = pure (offset i k) := by
  have hlow := i.le_toInt
  rw [add, int64, hj, if_pos ⟨by omega, by omega⟩, offset]

theorem sub_eq {i j : Int64} (hlow : -(2 ^ 63) ≤ i.toInt - j.toInt)
    (hhigh : i.toInt - j.toInt < 2 ^ 63) :
    (sub i j : LibM W Int64) = pure (Int64.ofInt (i.toInt - j.toInt)) := by
  rw [sub, int64, if_pos ⟨by omega, by omega⟩]

theorem forUp_eq_ascending {last : Int64} {body : Int64 → Unit → LibM W Unit}
    (round : Nat → LibM W Unit) (n : Nat) :
    ∀ {i : Int64} {m : Nat}, (last.toInt - i.toInt).toNat = n →
      (∀ k, k < n → body (offset i k) () = round (m + k)) →
      discard (forUp last body i ()) = ascending round m n := by
  induction n with
  | zero =>
      intro i m hlast _
      rw [forUp, if_neg (by rw [Int64.lt_iff_toInt_lt]; omega)]
      rfl
  | succ n ih =>
      intro i m hlast hbody
      have hlt : i < last := by
        rw [Int64.lt_iff_toInt_lt]
        omega
      have hbound := last.toInt_lt
      have hone : (1 : Int64).toInt = (1 : Nat) := rfl
      have hnext := toInt_succ hlt
      have hfirst := hbody 0 (by omega)
      rw [offset_zero] at hfirst
      rw [forUp, if_pos hlt, add_eq hone (by omega), ascending, hfirst]
      have hrest := ih (i := i + 1) (m := m + 1) (by omega) fun k hk => by
        rw [show m + 1 + k = m + (k + 1) by omega, ← hbody (k + 1) (by omega)]
        congr 1
        apply Int64.toInt_inj.mp
        rw [toInt_offset (by omega), toInt_offset (by omega)]
        omega
      rw [← hrest]
      simp only [discard, LawfulFunctor.map_const, Function.comp_apply, Nat.add_zero, pure_bind,
        map_bind]

theorem forDown_eq_descending {bound : Int64} {body : Int64 → LibM W Unit}
    (round : Nat → LibM W Unit) (n : Nat) :
    ∀ {i : Int64}, i.toInt = bound.toInt + n →
      (∀ k, k < n → body (offset bound (k + 1)) = round k) →
      forDown bound body i = descending round n := by
  induction n with
  | zero =>
      intro i hi _
      rw [forDown, if_neg (by rw [Int64.lt_iff_toInt_lt]; omega)]
      rfl
  | succ n ih =>
      intro i hi hbody
      have hlt : bound < i := by
        rw [Int64.lt_iff_toInt_lt]
        omega
      have hbound := i.toInt_lt
      have hlow := bound.le_toInt
      have hone : (1 : Int64).toInt = 1 := rfl
      have hnext := toInt_pred hlt
      have hfirst : offset bound (n + 1) = i := by
        apply Int64.toInt_inj.mp
        rw [toInt_offset (by omega)]
        omega
      rw [forDown, if_pos hlt, sub_eq (by omega) (by omega), descending, ← hbody n (by omega),
        hfirst]
      simp only [pure_bind]
      rw [ih (i := i - 1) (by omega) fun k hk => hbody k (by omega)]

/-! ## Arguments -/

/-- Wherever the library asks for an integer it takes `w` for `n`. -/
def StandsFor (host : Host W) (L : State) (w : TValue) (n : Int64) : Prop :=
  ∀ (args : List TValue) (idx : Nat) (q : Process W), q.L.interned = L.interned → 1 ≤ idx →
    args[idx - 1]? = some w → checkInt host args idx q = .ok n q

theorem standsFor_integer (host : Host W) (L : State) (n : Int64) :
    StandsFor host L (.integer n) n := by
  intro args idx q _ hidx h
  have hlen : ¬ (idx < 1 ∨ args.length < idx) := by
    have hlt := (List.getElem?_eq_some_iff.mp h).1
    omega
  rw [checkInt, checkAny, if_neg hlen, stackAt, h]
  rfl

theorem stackAt_ok {args : List TValue} {idx : Nat} {v : TValue} (h : args[idx - 1]? = some v) :
    (stackAt args idx : LibM W TValue) = pure v := by
  rw [stackAt, h]

theorem checkTable_eq {args : List TValue} (h : args[0]? = some (.table a)) :
    (checkTable args : LibM W TValue) = pure (.table a) := by
  rw [checkTable, stackAt_ok h, pure_bind]
  rfl

/-! ## `table.move` -/

/-- The checks of `table.move`: the number of elements, and the last index they get. -/
def MoveChecks (f e tpos : Int64) : Prop :=
  f ≤ e → (f ≤ 0 → e.toInt - f.toInt < 2 ^ 63 - 1) ∧ tpos.toInt + (e.toInt - f.toInt) < 2 ^ 63

section

variable {b : Addr} {f e tpos : Int64}

theorem moveElement_eq (D : Addr → Prop) (L₀ : State) {i : Int64} {k : Nat} (hi : i.toInt = k)
    (hf : f.toInt + k < 2 ^ 63) (ht : tpos.toInt + k < 2 ^ 63) :
    moveElement host (.table a) (.table b) f tpos i =
      (elements host D L₀).copyCell (cell b (offset tpos k)) (cell a (offset f k)) := by
  rw [moveElement, add_eq hi ht, add_eq hi hf]
  simp only [pure_bind]
  rfl

theorem count_lt (hcount : f ≤ 0 → e.toInt - f.toInt < 2 ^ 63 - 1) :
    e.toInt - f.toInt < 2 ^ 63 - 1 := by
  have helt := e.toInt_lt
  by_cases hf : f ≤ 0
  · exact hcount hf
  · have hpos : ¬ f.toInt ≤ 0 := fun h => hf (Int64.le_iff_toInt_le.mpr h)
    omega

theorem guard_iff (hle : f ≤ e) :
    (f ≤ 0 ∧ Int64.maxValue.toUInt64 ≤ e.toUInt64 - f.toUInt64) ↔
      ¬ (f ≤ 0 → e.toInt - f.toInt < 2 ^ 63 - 1) := by
  have hnat := toNat_sub_toUInt64 hle
  have hmaxNat : Int64.maxValue.toUInt64.toNat = 2 ^ 63 - 1 := rfl
  rw [UInt64.le_iff_toNat_le, hmaxNat, Classical.not_imp]
  apply and_congr_right
  intro _
  omega

theorem moveRange_eq {n : Nat} (hn : (n : Int) = e.toInt - f.toInt + 1) (hle : f ≤ e)
    (hcount : f ≤ 0 → e.toInt - f.toInt < 2 ^ 63 - 1) (dest src : TValue) :
    moveRange host src dest f e tpos = (do
      if Int64.ofInt (2 ^ 63 - n) < tpos then panic "destination wrap around"
      if e < tpos ∨ tpos ≤ f ∨ ¬ valuesEqual dest src then
        discard (forUp (Int64.ofInt n) (fun i _ => moveElement host src dest f tpos i) 0 ())
      else forDown (-1) (moveElement host src dest f tpos) (Int64.ofInt (n - 1))) := by
  have hsmall := count_lt hcount
  have hfe := Int64.le_iff_toInt_le.mp hle
  have helt := e.toInt_lt
  have hone : (1 : Int64).toInt = (1 : Nat) := rfl
  have hmax : Int64.maxValue.toInt = 2 ^ 63 - 1 := rfl
  have hguard : ¬ (f ≤ 0 ∧ Int64.maxValue.toUInt64 ≤ e.toUInt64 - f.toUInt64) :=
    fun h => (guard_iff hle).mp h hcount
  have hd : (Int64.ofInt (e.toInt - f.toInt)).toInt = e.toInt - f.toInt :=
    Int64.toInt_ofInt_of_le (by omega) (by omega)
  have hnOffset : offset (Int64.ofInt (e.toInt - f.toInt)) 1 = Int64.ofInt n := by
    rw [offset, hd, hn]
    rfl
  have hnToInt : (Int64.ofInt n).toInt = n := Int64.toInt_ofInt_of_le (by omega) (by omega)
  have hrest : offset (Int64.ofInt (Int64.maxValue.toInt - (Int64.ofInt n).toInt)) 1 =
      Int64.ofInt (2 ^ 63 - n) := by
    rw [offset, Int64.toInt_ofInt_of_le (by omega) (by omega), hmax, hnToInt]
    congr 1
    omega
  have hlast : (sub (Int64.ofInt n) 1 : LibM W Int64) = pure (Int64.ofInt (n - 1)) := by
    rw [sub_eq (by omega) (by omega), hnToInt, hone]
    rfl
  have hroom : (Int64.ofInt (Int64.maxValue.toInt - (Int64.ofInt n).toInt)).toInt + (1 : Nat) <
      2 ^ 63 := by
    rw [Int64.toInt_ofInt_of_le (by omega) (by omega)]
    omega
  rw [moveRange, if_neg hguard, sub_eq (by omega) (by omega)]
  simp only [pure_bind]
  rw [add_eq hone (by omega), hnOffset]
  simp only [pure_bind]
  rw [sub_eq (by omega) (by omega)]
  simp only [pure_bind]
  rw [add_eq hone hroom, hrest]
  simp only [pure_bind, hlast]

theorem limit_lt_iff {n : Nat} (hn : (n : Int) = e.toInt - f.toInt + 1) (hle : f ≤ e)
    (hcount : f ≤ 0 → e.toInt - f.toInt < 2 ^ 63 - 1) :
    Int64.ofInt (2 ^ 63 - n) < tpos ↔ 2 ^ 63 ≤ tpos.toInt + (e.toInt - f.toInt) := by
  have hsmall := count_lt hcount
  have hfe := Int64.le_iff_toInt_le.mp hle
  rw [Int64.lt_iff_toInt_lt, Int64.toInt_ofInt_of_le (by omega) (by omega)]
  omega

theorem moveRange_copies {n : Nat} (hready : Ready (fun c => c = a ∨ c = b) p)
    (hn : (n : Int) = e.toInt - f.toInt + 1) (hle : f ≤ e) (hchecks : MoveChecks f e tpos) :
    Returns (moveRange host (.table a) (.table b) f e tpos) p fun _ p' =>
      Moved (· < n) (fun k => cell b (offset tpos k)) (fun k => cell a (offset f k))
        ((elements host (fun c => c = a ∨ c = b) p.L).view p)
        ((elements host (fun c => c = a ∨ c = b) p.L).view p') := by
  obtain ⟨hcount, hroom⟩ := hchecks hle
  have hsmall := count_lt hcount
  have hlimit := (not_congr (limit_lt_iff hn hle hcount)).mpr (Int.not_le.mpr hroom)
  have helt := e.toInt_lt
  have hnToInt : (Int64.ofInt n).toInt = n := Int64.toInt_ofInt_of_le (by omega) (by omega)
  have hsrc : ∀ k, k < n → (offset f k).toInt = f.toInt + k :=
    fun k hk => toInt_offset (by omega)
  have hdst : ∀ k, k < n → (offset tpos k).toInt = tpos.toInt + k :=
    fun k hk => toInt_offset (by omega)
  have hinj : ∀ i j, i < j → j < n → cell b (offset tpos i) ≠ cell b (offset tpos j) := by
    intro i j hij hj heq
    have hint := congrArg Int64.toInt (cell_inj.mp heq).2
    rw [hdst i (by omega), hdst j hj] at hint
    omega
  have hmemDst : ∀ k < n,
      (elements host (fun c => c = a ∨ c = b) p.L).Mem (cell b (offset tpos k)) :=
    fun k _ => ⟨Or.inr rfl, _, rfl⟩
  have hmemSrc : ∀ k < n, (elements host (fun c => c = a ∨ c = b) p.L).Mem (cell a (offset f k)) :=
    fun k _ => ⟨Or.inl rfl, _, rfl⟩
  have hok : (elements host (fun c => c = a ∨ c = b) p.L).Ok p := ⟨hready, .refl p.L⟩
  rw [moveRange_eq hn hle hcount, if_neg hlimit]
  apply ends_ite
  · -- upwards, unless the destination begins inside of the source
    intro hdir
    have hzero : (0 : Int64).toInt = 0 := rfl
    rw [forUp_eq_ascending (fun k => (elements host (fun c => c = a ∨ c = b) p.L).copyCell
      (cell b (offset tpos k)) (cell a (offset f k))) n (m := 0) (by omega) ?_]
    rotate_left
    · intro k hk
      rw [Nat.zero_add]
      refine moveElement_eq _ _ ?_ (by omega) (by omega)
      rw [toInt_offset (by omega)]
      omega
    apply (ascending_copies hok hmemDst hmemSrc hinj ?_).imp fun _ _ h => h.2
    intro i j hij hj heq
    obtain ⟨rfl, hint⟩ := cell_inj.mp heq
    have hint := congrArg Int64.toInt hint
    rw [hdst i (by omega), hsrc j hj] at hint
    rcases hdir with hdir | hdir | hdir
    · have := Int64.lt_iff_toInt_lt.mp hdir
      omega
    · have := Int64.le_iff_toInt_le.mp hdir
      omega
    · simp [valuesEqual] at hdir
  · -- downwards: the destination begins after the source
    intro hdir
    have hneg : (-1 : Int64).toInt = -1 := rfl
    have hlast : (Int64.ofInt (n - 1)).toInt = n - 1 :=
      Int64.toInt_ofInt_of_le (by omega) (by omega)
    rw [forDown_eq_descending (fun k => (elements host (fun c => c = a ∨ c = b) p.L).copyCell
      (cell b (offset tpos k)) (cell a (offset f k))) n (by omega) ?_]
    rotate_left
    · intro k hk
      refine moveElement_eq _ _ ?_ (by omega) (by omega)
      rw [toInt_offset (by omega)]
      omega
    apply (descending_copies hok hmemDst hmemSrc hinj ?_).imp fun _ _ h => h.2
    intro i j hij hj heq
    have hint := congrArg Int64.toInt (cell_inj.mp heq).2
    rw [hdst j hj, hsrc i (by omega)] at hint
    have hnot : ¬ tpos.toInt ≤ f.toInt :=
      fun h => hdir (Or.inr (Or.inl (Int64.le_iff_toInt_le.mpr h)))
    omega

variable {wf we wt : TValue} {rest : List TValue}

/-- The table that the elements go to: the fifth argument, or the first. -/
def MoveDest (rest : List TValue) (a b : Addr) : Prop :=
  rest = [] ∧ b = a ∨ rest.head? = some (.table b)

theorem moveDest_eq (h : MoveDest rest a b) :
    (moveDest (.table a :: wf :: we :: wt :: rest) (.table a) : LibM W TValue) =
      pure (.table b) := by
  rcases h with ⟨rfl, rfl⟩ | hrest
  · rfl
  · obtain ⟨tail, rfl⟩ := List.head?_eq_some_iff.mp hrest
    rw [moveDest, if_neg (by simp), stackAt_ok rfl]
    rfl

theorem tabMove_eq (hf : StandsFor host p.L wf f) (he : StandsFor host p.L we e)
    (ht : StandsFor host p.L wt tpos) (hb : MoveDest rest a b) :
    tabMove host (.table a :: wf :: we :: wt :: rest) p =
      (if f ≤ e then do
        moveRange host (.table a) (.table b) f e tpos
        return [TValue.table b]
      else return [TValue.table b]) p := by
  rw [tabMove, checkTable_eq rfl]
  simp only [pure_bind]
  rw [bind_of_ok (hf _ 2 p rfl (by decide) rfl), bind_of_ok (he _ 3 p rfl (by decide) rfl),
    bind_of_ok (ht _ 4 p rfl (by decide) rfl), moveDest_eq hb]
  simp only [pure_bind]

/-- The elements from `f` to `e` move as they were before the call. -/
theorem tabMove_copies (hready : Ready (fun c => c = a ∨ c = b) p)
    (hf : StandsFor host p.L wf f) (he : StandsFor host p.L we e)
    (ht : StandsFor host p.L wt tpos) (hb : MoveDest rest a b)
    (hchecks : MoveChecks f e tpos) :
    Returns (tabMove host (.table a :: wf :: we :: wt :: rest)) p fun r p' => r = [.table b] ∧
      (∀ k : Nat, f.toInt + k ≤ e.toInt →
        p'.L.rawGet (.table b) (.integer (offset tpos k)) =
          p.L.rawGet (.table a) (.integer (offset f k))) ∧
      ∀ c key, Canonical key →
        (∀ k : Nat, f.toInt + k ≤ e.toInt → ¬ (c = b ∧ key = .integer (offset tpos k))) →
        p'.L.rawGet (.table c) key = p.L.rawGet (.table c) key := by
  apply Ends.congr (tabMove_eq hf he ht hb)
  apply ends_ite
  · intro hle
    have hfe := Int64.le_iff_toInt_le.mp hle
    apply (moveRange_copies (n := (e.toInt - f.toInt + 1).toNat) hready (by omega) hle
      hchecks).bind
    rintro _ p' ⟨hmoved, hkept⟩
    refine ends_pure ⟨rfl, fun k hk => hmoved k (by omega), ?_⟩
    intro c key hkey hother
    apply hkept (c, ⟨key, hkey⟩)
    intro k hk heq
    apply hother k (by omega)
    simpa [cell] using heq
  · intro hle
    have hfe : ¬ f.toInt ≤ e.toInt := fun h => hle (Int64.le_iff_toInt_le.mpr h)
    exact ends_pure ⟨rfl, fun k hk => by omega, fun _ _ _ _ => rfl⟩

end

/-! ## A range that moves onto itself -/

def arrayOnly (xs : List TValue) : Table := { array := xs, hash := List.replicate 8 {} }

theorem node_arrayOnly (xs : List TValue) (j : ℕ) : (arrayOnly xs).node j = {} := by
  rw [arrayOnly, node, List.getD_eq_getElem?_getD, List.getElem?_replicate]
  split <;> rfl

theorem arrayOnly_wf {I : InternedStrings} {xs : List TValue} (h : xs.length < 2 ^ 63) :
    (arrayOnly xs).Wf I := by
  have hnew : tableNew 0 8 = .ok (arrayOnly []) := rfl
  obtain ⟨hpos, -, hprobed, -, hnil, hunused⟩ := (tableNew_represents (L := I) hnew).wf
  refine ⟨hpos, h, hprobed, ?_, hnil, hunused⟩
  intro i k _ hkey
  have hused := (slotView_eq_key.mp hkey).1
  rw [node_arrayOnly] at hused
  exact nomatch hused

def oneTable (t : Table) : Process Unit where
  L := { heap := [(1, .table t)] }
  world := ()

theorem table?_oneTable (t : Table) (c : Addr) :
    (oneTable t).L.table? c = if c = 1 then some t else none := by
  by_cases hc : c = 1
  · subst hc
    rfl
  · have hne : (c == 1) = false := by simpa using hc
    simp [oneTable, State.table?, State.object?, Heap.object?, List.lookup_cons, hne, hc]

theorem oneTable_ready {t : Table} (wf : t.Wf (oneTable t).L.interned) (hmeta : t.metatable = none)
    {D : Addr → Prop} (hD : ∀ c, D c → c = 1) : Ready D (oneTable t) where
  wf c t' ht := by
    rw [table?_oneTable] at ht
    split at ht
    · obtain rfl := Option.some.inj ht
      exact wf
    · exact nomatch ht
  plain c hc := by
    obtain rfl := hD c hc
    have ht : (oneTable t).L.table? 1 = some t := rfl
    refine ⟨⟨t, ht⟩, ?_, ?_⟩ <;> simp [State.lacks_iff ht, hmeta]

def listProcess (xs : List TValue) : Process Unit := oneTable (arrayOnly xs)

theorem listProcess_ready {xs : List TValue} (h : xs.length < 2 ^ 63) {D : Addr → Prop}
    (hD : ∀ c, D c → c = 1) : Ready D (listProcess xs) :=
  oneTable_ready (arrayOnly_wf h) rfl hD

theorem tabMove_copies_onto_itself :
    Returns (tabMove (answering .nil) [.table 1, .integer 1, .integer 3, .integer 2])
      (listProcess [.integer 10, .integer 20, .integer 30]) fun r p' => r = [.table 1] ∧
        p'.L.rawGet (.table 1) (.integer 1) = .integer 10 ∧
        p'.L.rawGet (.table 1) (.integer 2) = .integer 10 ∧
        p'.L.rawGet (.table 1) (.integer 3) = .integer 20 ∧
        p'.L.rawGet (.table 1) (.integer 4) = .integer 30 := by
  apply (tabMove_copies (a := 1) (b := 1) (f := 1) (e := 3)
    (listProcess_ready (by decide) (by simp)) (standsFor_integer _ _ 1)
    (standsFor_integer _ _ 3) (standsFor_integer _ _ 2) (Or.inl ⟨rfl, rfl⟩)
    (fun _ => ⟨by decide, by decide⟩)).imp
  rintro r p' ⟨hr, hmoved, hkept⟩
  refine ⟨hr, ?_, hmoved 0 (by decide), hmoved 1 (by decide), hmoved 2 (by decide)⟩
  rw [hkept 1 _ (canonical_integer 1) ?_]
  · rfl
  · rintro k hk ⟨-, hkey⟩
    have hint := congrArg Int64.toInt (TValue.integer.inj hkey)
    have hthree : (3 : Int64).toInt = 3 := rfl
    have hone : (1 : Int64).toInt = 1 := rfl
    have htwo : (2 : Int64).toInt = 2 := rfl
    rw [toInt_offset (by omega)] at hint
    omega

end Luatier.TableLib
