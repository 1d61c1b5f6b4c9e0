import Luatier.Stdlib.TableShift

/-!
# Lists in tables

On a list that the length operator measures right, `table.insert` and
`table.remove` are insertion and removal at a position.
-/

namespace Luatier.TableLib

open Cells Table

variable {W : Type} {host : Host W} {p p' : Process W} {a : Addr} {D : Addr → Prop}
  {L₀ : State} {n pos : Int64}

/-! ## The length -/

variable (host) in
theorem metaLen_plain (hlacks : p.L.Lacks a .len) : ∃ p', State.ElementsOnly p.L p'.L ∧
    (∀ w key, p'.L.rawGet w key = p.L.rawGet w key) ∧ ∀ t, p'.L.table? a = some t →
      metaLen host (.table a) p = .ok (.integer (tableLength p'.L.interned t)) p' := by
  obtain ⟨L', hmm, honly, hraw⟩ := hlacks.getMetamethod
  refine ⟨{ p with L := L' }, honly, hraw, fun t ht => ?_⟩
  have hget : getMetamethod (.table a) "__len" p = .ok .nil { p with L := L' } := by
    show EStateM.Result.ok (p.L.getMetamethod (.table a) .len).1
      { p with L := (p.L.getMetamethod (.table a) .len).2 } = _
    rw [hmm]
  rw [metaLen, bind_of_ok hget]
  show EStateM.Result.ok (TValue.integer
    (((L'.table? a).map (tableLength L'.interned)).getD 0)) { p with L := L' } = _
  rw [ht]
  rfl

variable (host) in
theorem auxGetn_plain (htable : ∃ t, p.L.table? a = some t) (hlacks : p.L.Lacks a .len) :
    ∃ p' t, p'.L.table? a = some t ∧
      auxGetn host (.table a) p = .ok (tableLength p'.L.interned t) p' ∧
      State.ElementsOnly p.L p'.L ∧ ∀ w key, p'.L.rawGet w key = p.L.rawGet w key := by
  obtain ⟨p', honly, hraw, hlen⟩ := metaLen_plain host hlacks
  obtain ⟨t, ht⟩ := htable
  obtain ⟨t', ht', -⟩ := honly.some a t ht
  refine ⟨p', t', ht', ?_, honly, hraw⟩
  rw [auxGetn, bind_of_ok (hlen t' ht')]
  rfl

/-! ## The elements that move -/

/-- The elements from `pos` on are one place higher, and `v` is in front of them. -/
structure Inserted (a : Addr) (n pos : Int64) (v : TValue) (before after : Cell → TValue) :
    Prop where
  shifted : ∀ i : Int64, pos.toInt < i.toInt → i.toInt ≤ n.toInt + 1 →
    after (cell a i) = before (cell a (i - 1))
  new : after (cell a pos) = v
  kept : ∀ c, (∀ i : Int64, pos.toInt ≤ i.toInt → i.toInt ≤ n.toInt + 1 → c ≠ cell a i) →
    after c = before c

/-- The elements behind `pos` are one place lower, and the last place is free. -/
structure Removed (a : Addr) (n pos : Int64) (before after : Cell → TValue) : Prop where
  shifted : ∀ i : Int64, pos.toInt ≤ i.toInt → i.toInt < n.toInt →
    after (cell a i) = before (cell a (i + 1))
  last : 0 ≤ pos.toInt → pos.toInt ≤ n.toInt → (pos = 0 → n = 0) → after (cell a n) = .nil
  kept : ∀ c, (∀ i : Int64, pos.toInt ≤ i.toInt → i.toInt ≤ n.toInt → c ≠ cell a i) →
    after c = before c

theorem offset_of_le {i j : Int64} (h : i.toInt ≤ j.toInt) :
    j = offset i (j.toInt - i.toInt).toNat := by
  have hlt := j.toInt_lt
  apply Int64.toInt_inj.mp
  rw [toInt_offset (by omega)]
  omega

theorem cell_ne {i j : Int64} (h : i.toInt ≠ j.toInt) : cell a i ≠ cell a j := by
  intro heq
  exact h (congrArg Int64.toInt (cell_inj.mp heq).2)

theorem insert_shifts (hok : (elements host D L₀).Ok p) (ha : D a) (hpos : 1 ≤ pos.toInt)
    (hle : pos.toInt ≤ n.toInt + 1) (hn : n.toInt + 1 < 2 ^ 63) (v : TValue) :
    Returns (do
      forDown pos (fun k => do seti host (.table a) k (← geti host (.table a) (← sub k 1)))
        (offset n 1)
      seti host (.table a) pos v
      return ([] : List TValue)) p fun r p' => r = [] ∧ (elements host D L₀).Ok p' ∧
        Inserted a n pos v ((elements host D L₀).view p) ((elements host D L₀).view p') := by
  obtain ⟨m, hm⟩ : ∃ m : Nat, n.toInt + 1 = pos.toInt + m := ⟨(n.toInt + 1 - pos.toInt).toNat,
    by omega⟩
  have hone : (1 : Int64).toInt = 1 := rfl
  have hend : (offset n 1).toInt = pos.toInt + m := by rw [toInt_offset (by omega)]; omega
  have hoff : ∀ k, k ≤ m → (offset pos k).toInt = pos.toInt + k :=
    fun k hk => toInt_offset (by omega)
  have hround : ∀ k, k < m →
      (do seti host (.table a) (offset pos (k + 1))
            (← geti host (.table a) (← sub (offset pos (k + 1)) 1)) : LibM W Unit) =
        (elements host D L₀).copyCell (cell a (offset pos (k + 1))) (cell a (offset pos k)) := by
    intro k hk
    have hnext := hoff (k + 1) hk
    rw [sub_eq (by omega) (by omega), hnext, hone,
      show pos.toInt + ((k + 1 : Nat) : Int) - 1 = pos.toInt + k by omega]
    simp only [pure_bind]
    rfl
  rw [forDown_eq_descending _ m hend hround]
  have hcopied := descending_copies (n := m) hok (fun k _ => ⟨ha, offset pos (k + 1), rfl⟩)
    (fun k _ => ⟨ha, offset pos k, rfl⟩)
    (fun i j hij hj => cell_ne (a := a) (by rw [hoff _ (by omega), hoff _ (by omega)]; omega))
    (fun i j hij hj => cell_ne (a := a) (by rw [hoff _ (by omega), hoff _ (by omega)]; omega))
  apply hcopied.bind
  rintro _ p₁ ⟨hok₁, hmoved⟩
  apply ((elements host D L₀).put_ok (c := cell a pos) hok₁ ⟨ha, pos, rfl⟩).bind
  rintro _ p₂ ⟨hok₂, hview⟩
  refine ends_pure ⟨rfl, hok₂, ?_, ?_, ?_⟩
  · intro i hi hin
    obtain ⟨k, hk⟩ : ∃ k : Nat, i.toInt = pos.toInt + (k + 1) :=
      ⟨(i.toInt - pos.toInt - 1).toNat, by omega⟩
    have hieq : i = offset pos (k + 1) := by
      apply Int64.toInt_inj.mp
      rw [hoff _ (by omega)]
      omega
    have hpred : i - 1 = offset pos k := by
      apply Int64.toInt_inj.mp
      rw [toInt_pred (Int64.lt_iff_toInt_lt.mpr hi), hoff _ (by omega)]
      omega
    rw [hview, Function.update_of_ne (cell_ne (by omega)), hpred, hieq]
    exact hmoved.moved k (by omega)
  · rw [hview, Function.update_self]
  · intro c hc
    rw [hview, Function.update_of_ne (hc pos (by omega) (by omega))]
    apply hmoved.kept
    intro k hk
    exact hc _ (by rw [hoff _ (by omega)]; omega) (by rw [hoff _ (by omega)]; omega)

theorem remove_loop (hok : (elements host D L₀).Ok p) (ha : D a) :
    Returns (discard (forUp n (fun k _ => do
      seti host (.table a) k (← geti host (.table a) (← add k 1))) pos ())) p fun _ p' =>
        (elements host D L₀).Ok p' ∧
        Moved (· < (n.toInt - pos.toInt).toNat) (fun k => cell a (offset pos k))
          (fun k => cell a (offset pos (k + 1))) ((elements host D L₀).view p)
          ((elements host D L₀).view p') := by
  have hone : (1 : Int64).toInt = (1 : Nat) := rfl
  have hlt := n.toInt_lt
  have hposLt := pos.toInt_lt
  have hoff : ∀ k : Nat, k ≤ (n.toInt - pos.toInt).toNat →
      (offset pos k).toInt = pos.toInt + k := fun k hk => toInt_offset (by omega)
  have hround : ∀ k, k < (n.toInt - pos.toInt).toNat →
      (do seti host (.table a) (offset pos k)
            (← geti host (.table a) (← add (offset pos k) 1)) : LibM W Unit) =
        (elements host D L₀).copyCell (cell a (offset pos (0 + k)))
          (cell a (offset pos (0 + k + 1))) := by
    intro k hk
    have hthis := hoff k (by omega)
    have hsucc : offset (offset pos k) 1 = offset pos (k + 1) := by
      rw [offset, hthis, offset]
      congr 1
      omega
    rw [add_eq hone (by omega), hsucc, Nat.zero_add]
    simp only [pure_bind]
    rfl
  rw [forUp_eq_ascending (fun k => (elements host D L₀).copyCell (cell a (offset pos k))
    (cell a (offset pos (k + 1)))) (n.toInt - pos.toInt).toNat (m := 0) rfl hround]
  apply ascending_copies hok
  · exact fun k _ => ⟨ha, offset pos k, rfl⟩
  · exact fun k _ => ⟨ha, offset pos (k + 1), rfl⟩
  · intro i j hij hj
    apply cell_ne
    rw [hoff _ (by omega), hoff _ (by omega)]
    omega
  · intro i j hij hj
    apply cell_ne
    rw [hoff _ (by omega), hoff _ (by omega)]
    omega

theorem eraseLast_erases (hok : (elements host D L₀).Ok p) (ha : D a)
    (hzero : pos = 0 → n = 0) :
    Returns (eraseLast host (.table a) n pos) p fun _ p' => (elements host D L₀).Ok p' ∧
      (elements host D L₀).view p' =
        if 0 ≤ pos.toInt ∧ pos.toInt ≤ n.toInt then
          Function.update ((elements host D L₀).view p) (cell a n) .nil
        else (elements host D L₀).view p := by
  have hone : (1 : Int64).toInt = 1 := rfl
  have hput : ∀ i, Returns (seti host (.table a) i .nil) p fun _ p' =>
      (elements host D L₀).Ok p' ∧ (elements host D L₀).view p' =
        Function.update ((elements host D L₀).view p) (cell a i) .nil :=
    fun i => (elements host D L₀).put_ok (c := cell a i) hok ⟨ha, i, rfl⟩
  apply ends_ite
  · rintro ⟨hpos, hle⟩
    rw [Int64.le_iff_toInt_le] at hpos hle
    rw [if_pos ⟨by omega, hle⟩]
    exact hput n
  · intro hnot
    apply ends_ite
    · rintro rfl
      obtain rfl := hzero rfl
      rw [if_pos ⟨Int.le_refl 0, Int.le_refl 0⟩]
      exact hput 0
    · intro hne
      have hne' : pos.toInt ≠ 0 := fun h => hne (Int64.toInt_inj.mp h)
      rw [if_neg ?_]
      · exact ends_pure ⟨hok, rfl⟩
      · rintro ⟨hpos, hle⟩
        apply hnot
        rw [Int64.le_iff_toInt_le, Int64.le_iff_toInt_le]
        omega

theorem remove_shifts (hok : (elements host D L₀).Ok p) (ha : D a) (hzero : pos = 0 → n = 0) :
    Returns (do
      let v ← geti host (.table a) pos
      discard (forUp n (fun k _ => do
        seti host (.table a) k (← geti host (.table a) (← add k 1))) pos ())
      eraseLast host (.table a) n pos
      return [v]) p fun r p' => r = [(elements host D L₀).view p (cell a pos)] ∧
        (elements host D L₀).Ok p' ∧
        Removed a n pos ((elements host D L₀).view p) ((elements host D L₀).view p') := by
  have hlt := n.toInt_lt
  apply ((elements host D L₀).get_ok (c := cell a pos) hok ⟨ha, pos, rfl⟩).bind
  rintro _ p₁ ⟨rfl, hok₁, hview₁⟩
  apply (remove_loop hok₁ ha).bind
  rintro _ p₂ ⟨hok₂, hmoved⟩
  rw [hview₁] at hmoved
  apply (eraseLast_erases hok₂ ha hzero).bind
  rintro _ p₃ ⟨hok₃, hview₃⟩
  refine ends_pure ⟨rfl, hok₃, ?_, ?_, ?_⟩
  · intro i hi hin
    have hkeep : (elements host D L₀).view p₃ (cell a i) =
        (elements host D L₀).view p₂ (cell a i) := by
      rw [hview₃]
      split
      · exact Function.update_of_ne (cell_ne (by omega)) _ _
      · rfl
    have hsucc : i + 1 = offset pos ((i.toInt - pos.toInt).toNat + 1) := by
      apply Int64.toInt_inj.mp
      rw [toInt_succ (Int64.lt_iff_toInt_lt.mpr hin), toInt_offset (by omega)]
      omega
    rw [hkeep, hsucc]
    have hthis := hmoved.moved (i.toInt - pos.toInt).toNat (by omega)
    rwa [← offset_of_le hi] at hthis
  · intro hpos hle _
    rw [hview₃, if_pos ⟨hpos, hle⟩, Function.update_self]
  · intro c hc
    have hkeep : (elements host D L₀).view p₃ c = (elements host D L₀).view p₂ c := by
      rw [hview₃]
      split
      · rename_i hrange
        exact Function.update_of_ne (hc n hrange.2 (Int.le_refl _)) _ _
      · rfl
    rw [hkeep]
    apply hmoved.kept
    intro k hk
    apply hc <;> rw [toInt_offset (by omega)] <;> omega

/-! ## The calls -/

/-- The length operator gives `n`, and what it leaves differs from `p` in a cache at most. -/
structure Measured (host : Host W) (a : Addr) (p : Process W) (n : Int64) (p₁ : Process W) :
    Prop where
  run : auxGetn host (.table a) p = .ok n p₁
  only : State.ElementsOnly p.L p₁.L
  same : ∀ w key, p₁.L.rawGet w key = p.L.rawGet w key

theorem Measured.view {p₁ : Process W} (h : Measured host a p n p₁) :
    (elements host D L₀).view p₁ = (elements host D L₀).view p :=
  funext fun c => h.same (.table c.1) c.2

theorem Measured.ok {p₁ : Process W} (h : Measured host a p n p₁)
    (hok : (elements host D L₀).Ok p) : (elements host D L₀).Ok p₁ :=
  ⟨hok.1.elementsOnly h.only, hok.2.trans h.only⟩

variable {p₁ : Process W} {w v : TValue}

def InsertPosition (n pos : Int64) : Prop := 1 ≤ pos.toInt ∧ pos.toInt ≤ n.toInt + 1

def RemovePosition (n pos : Int64) : Prop := pos = n ∨ InsertPosition n pos

theorem tabInsert_run (hlen : Measured host a p n p₁) (hw : StandsFor host p.L w pos)
    (hn : n.toInt + 1 < 2 ^ 63) (v : TValue) :
    tabInsert host [.table a, w, v] p = (do
      if pos < 1 ∨ offset n 1 < pos then panic "position out of bounds"
      forDown pos (fun k => do seti host (.table a) k (← geti host (.table a) (← sub k 1)))
        (offset n 1)
      seti host (.table a) pos v
      return []) p₁ := by
  have hone : (1 : Int64).toInt = (1 : Nat) := rfl
  rw [tabInsert, checkTable_eq rfl]
  simp only [pure_bind]
  rw [if_neg (by simp), if_pos (by simp), bind_of_ok (hw _ 2 p rfl (by decide) rfl),
    bind_of_ok hlen.run, add_eq hone (by omega)]
  simp only [pure_bind]
  have hthird : (stackAt [.table a, w, v] 3 : LibM W TValue) = pure v := rfl
  rw [hthird]
  simp only [pure_bind]

theorem tabInsert_inserts (hok : (elements host D L₀).Ok p) (ha : D a)
    (hlen : Measured host a p n p₁) (hw : StandsFor host p.L w pos)
    (hn : n.toInt + 1 < 2 ^ 63) (hpos : InsertPosition n pos) (v : TValue) :
    Returns (tabInsert host [.table a, w, v]) p fun r p' => r = [] ∧
      (elements host D L₀).Ok p' ∧
      Inserted a n pos v ((elements host D L₀).view p) ((elements host D L₀).view p') := by
  have hrange : ¬ (pos < 1 ∨ offset n 1 < pos) := by
    have hone : (1 : Int64).toInt = 1 := rfl
    obtain ⟨hlow, hhigh⟩ := hpos
    rw [Int64.lt_iff_toInt_lt, Int64.lt_iff_toInt_lt, toInt_offset (by omega)]
    omega
  apply Ends.congr (tabInsert_run hlen hw hn v)
  rw [if_neg hrange, ← hlen.view]
  exact insert_shifts (hlen.ok hok) ha hpos.1 hpos.2 hn v

theorem tabInsert_rejects (hlen : Measured host a p n p₁) (hw : StandsFor host p.L w pos)
    (hn : n.toInt + 1 < 2 ^ 63) (hpos : ¬ InsertPosition n pos) (v : TValue) :
    tabInsert host [.table a, w, v] p = .error (.panic "position out of bounds") p₁ := by
  have hrange : pos < 1 ∨ offset n 1 < pos := by
    have hone : (1 : Int64).toInt = 1 := rfl
    rw [InsertPosition] at hpos
    rw [Int64.lt_iff_toInt_lt, Int64.lt_iff_toInt_lt, toInt_offset (by omega)]
    omega
  rw [tabInsert_run hlen hw hn v, if_pos hrange]
  rfl

theorem removePosition_run (hw : StandsFor host p₁.L w pos) (hn : n.toInt + 1 < 2 ^ 63) :
    (RemovePosition n pos → removePosition host [.table a, w] n p₁ = .ok pos p₁) ∧
      (¬ RemovePosition n pos → removePosition host [.table a, w] n p₁ =
        .error (.panic "position out of bounds") p₁) := by
  have hone : (1 : Int64).toInt = (1 : Nat) := rfl
  have hadd : (add n 1 : LibM W Int64) = pure (offset n 1) := add_eq hone (by omega)
  have hoff : (offset n 1).toInt = n.toInt + 1 := toInt_offset (by omega)
  rw [removePosition, if_pos (by simp), bind_of_ok (hw _ 2 p₁ rfl (by decide) rfl), hadd]
  simp only [pure_bind]
  by_cases heq : pos = n
  · rw [if_pos heq]
    exact ⟨fun _ => rfl, fun h => absurd (Or.inl heq) h⟩
  · rw [if_neg heq]
    by_cases hlow : pos < 1
    · rw [if_pos hlow]
      refine ⟨?_, fun _ => rfl⟩
      rintro (h | ⟨h, -⟩)
      · exact absurd h heq
      · rw [Int64.lt_iff_toInt_lt] at hlow
        omega
    · rw [if_neg hlow]
      by_cases hhigh : offset n 1 < pos
      · rw [if_pos hhigh]
        refine ⟨?_, fun _ => rfl⟩
        rintro (h | ⟨-, h⟩)
        · exact absurd h heq
        · rw [Int64.lt_iff_toInt_lt] at hhigh
          omega
      · rw [if_neg hhigh]
        refine ⟨fun _ => rfl, fun h => absurd (Or.inr ⟨?_, ?_⟩) h⟩
        · rw [Int64.lt_iff_toInt_lt] at hlow
          omega
        · rw [Int64.lt_iff_toInt_lt] at hhigh
          omega

theorem tabRemove_removes (hok : (elements host D L₀).Ok p) (ha : D a)
    (hlen : Measured host a p n p₁) (hw : StandsFor host p.L w pos)
    (hn : n.toInt + 1 < 2 ^ 63) (hpos : RemovePosition n pos) :
    Returns (tabRemove host [.table a, w]) p fun r p' =>
      r = [(elements host D L₀).view p (cell a pos)] ∧ (elements host D L₀).Ok p' ∧
      Removed a n pos ((elements host D L₀).view p) ((elements host D L₀).view p') := by
  have hzero : pos = 0 → n = 0 := by
    rintro rfl
    rcases hpos with h | ⟨h, -⟩
    · exact h.symm
    · exact absurd h (by decide)
  have hw₁ : StandsFor host p₁.L w pos := by
    intro args idx q hq
    exact hw args idx q (hq.trans hlen.only.interned)
  have hrun : tabRemove host [.table a, w] p = (do
      let v ← geti host (.table a) pos
      discard (forUp n (fun k _ => do
        seti host (.table a) k (← geti host (.table a) (← add k 1))) pos ())
      eraseLast host (.table a) n pos
      return [v]) p₁ := by
    rw [tabRemove, checkTable_eq rfl]
    simp only [pure_bind]
    rw [bind_of_ok hlen.run, bind_of_ok ((removePosition_run hw₁ hn).1 hpos)]
  apply Ends.congr hrun
  rw [← hlen.view]
  exact remove_shifts (hlen.ok hok) ha hzero

theorem tabRemove_rejects (hlen : Measured host a p n p₁) (hw : StandsFor host p.L w pos)
    (hn : n.toInt + 1 < 2 ^ 63) (hpos : ¬ RemovePosition n pos) :
    tabRemove host [.table a, w] p = .error (.panic "position out of bounds") p₁ := by
  have hw₁ : StandsFor host p₁.L w pos := by
    intro args idx q hq
    exact hw args idx q (hq.trans hlen.only.interned)
  rw [tabRemove, checkTable_eq rfl]
  simp only [pure_bind]
  rw [bind_of_ok hlen.run, bind_of_error ((removePosition_run hw₁ hn).2 hpos)]

/-! ## Lists -/

variable {xs : List TValue}

/-- The elements with positive indices are those of the list. -/
def Holds (L : State) (a : Addr) (xs : List TValue) : Prop :=
  ∀ i : Int64, 1 ≤ i.toInt →
    L.rawGet (.table a) (.integer i) = xs.getD (i.toInt - 1).toNat .nil

/-- Only positive indices of the table may have other elements than before. -/
def SameElsewhere (a : Addr) (L L' : State) : Prop :=
  ∀ b key, Canonical key → (b = a → ∀ i : Int64, 1 ≤ i.toInt → key ≠ .integer i) →
    L'.rawGet (.table b) key = L.rawGet (.table b) key

theorem holds_iff {L L' : State} (h : ∀ w key, L'.rawGet w key = L.rawGet w key) :
    Holds L' a xs ↔ Holds L a xs := by
  simp only [Holds, h]

variable (host) in
theorem measured_list (wf : p.L.TablesWf) (htable : ∃ t, p.L.table? a = some t)
    (hlacks : p.L.Lacks a .len) (hlist : Holds p.L a xs) (hproper : .nil ∉ xs)
    (hlen : xs.length ≤ 10000001) : ∃ p₁, Measured host a p (Int64.ofNat xs.length) p₁ := by
  obtain ⟨p₁, t, ht, hrun, honly, hsame⟩ := auxGetn_plain host htable hlacks
  have helement : ∀ k, 1 ≤ k → k < 2 ^ 63 → t.element p₁.L.interned k = xs.getD (k - 1) .nil := by
    intro k hk hlt
    have hint := toInt_ofNat hlt
    have hget := (holds_iff hsame).mpr hlist (Int64.ofNat k) (by omega)
    rw [State.rawGet, ht, hint, show ((k : Int) - 1).toNat = k - 1 by omega] at hget
    exact hget
  have hlength : tableLength p₁.L.interned t = Int64.ofNat xs.length := by
    apply tableLength_of_gap
    · intro k hk hkn hnil
      rw [helement k hk (by omega), List.getD_eq_getElem?_getD,
        List.getElem?_eq_getElem (by omega), Option.getD_some] at hnil
      exact hproper (hnil ▸ List.getElem_mem _)
    · rw [helement _ (by omega) (by omega)]
      simp
    · exact hlen
    · right
      intro k hk hle
      have hlt := (honly.tablesWf wf a t ht).array_lt
      rw [helement k (by omega) (by omega), List.getD_eq_default _ _ (by omega)]
  rw [hlength] at hrun
  exact ⟨p₁, hrun, honly, hsame⟩

theorem Inserted.holds {before after : Cell → TValue}
    (h : Inserted a n pos v before after) (hn : n.toInt = xs.length)
    (hpos : InsertPosition n pos)
    (hlist : ∀ i : Int64, 1 ≤ i.toInt → before (cell a i) = xs.getD (i.toInt - 1).toNat .nil)
    {i : Int64} (hi : 1 ≤ i.toInt) :
    after (cell a i) = (xs.insertIdx (pos.toInt - 1).toNat v).getD (i.toInt - 1).toNat .nil := by
  obtain ⟨hlow, hhigh⟩ := hpos
  rw [List.getD_eq_getElem?_getD, List.getElem?_insertIdx]
  rcases Int.lt_trichotomy i.toInt pos.toInt with hlt | heq | hgt
  · rw [if_pos (by omega), h.kept _ fun j hj _ => cell_ne (by omega), hlist i hi,
      List.getD_eq_getElem?_getD]
  · obtain rfl := Int64.toInt_inj.mp heq
    rw [if_neg (by omega), if_pos rfl, if_pos (by omega), h.new, Option.getD_some]
  · rw [if_neg (by omega), if_neg (by omega)]
    by_cases hin : i.toInt ≤ n.toInt + 1
    · have hpred := toInt_pred (Int64.lt_iff_toInt_lt.mpr hgt)
      rw [h.shifted i hgt hin, hlist _ (by omega), hpred, List.getD_eq_getElem?_getD,
        show (i.toInt - 1 - 1).toNat = (i.toInt - 1).toNat - 1 by omega]
    · rw [h.kept _ fun j _ hj => cell_ne (by omega), hlist i hi,
        List.getD_eq_default _ _ (by omega), List.getElem?_eq_none (by omega), Option.getD_none]

theorem Inserted.sameElsewhere {L L' : State}
    (h : Inserted a n pos v (fun c => L.rawGet (.table c.1) c.2)
      fun c => L'.rawGet (.table c.1) c.2) (hpos : 1 ≤ pos.toInt) : SameElsewhere a L L' := by
  intro b key hkey hother
  apply h.kept (b, ⟨key, hkey⟩)
  intro i hi _ heq
  obtain ⟨rfl, hk⟩ := Prod.mk.inj heq
  exact hother rfl i (by omega) (congrArg Subtype.val hk)

theorem Removed.holds {before after : Cell → TValue} (h : Removed a n pos before after)
    (hn : n.toInt = xs.length) (hpos : 1 ≤ pos.toInt) (hle : pos.toInt ≤ n.toInt)
    (hlist : ∀ i : Int64, 1 ≤ i.toInt → before (cell a i) = xs.getD (i.toInt - 1).toNat .nil)
    {i : Int64} (hi : 1 ≤ i.toInt) :
    after (cell a i) = (xs.eraseIdx (pos.toInt - 1).toNat).getD (i.toInt - 1).toNat .nil := by
  rw [List.getD_eq_getElem?_getD, List.getElem?_eraseIdx]
  by_cases hlt : i.toInt < pos.toInt
  · rw [if_pos (by omega), h.kept _ fun j hj _ => cell_ne (by omega), hlist i hi,
      List.getD_eq_getElem?_getD]
  · rw [if_neg (by omega)]
    rcases Int.lt_trichotomy i.toInt n.toInt with hin | heq | hgt
    · have hsucc := toInt_succ (Int64.lt_iff_toInt_lt.mpr hin)
      rw [h.shifted i (by omega) hin, hlist _ (by omega), hsucc, List.getD_eq_getElem?_getD,
        show (i.toInt + 1 - 1).toNat = (i.toInt - 1).toNat + 1 by omega]
    · obtain rfl := Int64.toInt_inj.mp heq
      have hnonzero : pos ≠ 0 := by
        rintro rfl
        exact absurd hpos (by decide)
      rw [h.last (by omega) hle fun hzero => absurd hzero hnonzero,
        List.getElem?_eq_none (by omega), Option.getD_none]
    · rw [h.kept _ fun j _ hj => cell_ne (by omega), hlist i hi,
        List.getD_eq_default _ _ (by omega), List.getElem?_eq_none (by omega), Option.getD_none]

theorem Removed.sameElsewhere {L L' : State}
    (h : Removed a n pos (fun c => L.rawGet (.table c.1) c.2)
      fun c => L'.rawGet (.table c.1) c.2) (hpos : 1 ≤ pos.toInt) : SameElsewhere a L L' := by
  intro b key hkey hother
  apply h.kept (b, ⟨key, hkey⟩)
  intro i hi _ heq
  obtain ⟨rfl, hk⟩ := Prod.mk.inj heq
  exact hother rfl i (by omega) (congrArg Subtype.val hk)

theorem Removed.restores {before middle after : Cell → TValue}
    (h : Inserted a n pos v before middle) (h' : Removed a (offset n 1) pos middle after)
    (hpos : InsertPosition n pos) (hn : n.toInt + 1 < 2 ^ 63)
    (hfree : before (cell a (offset n 1)) = .nil) : after = before := by
  obtain ⟨hlow, hhigh⟩ := hpos
  have hend : (offset n 1).toInt = n.toInt + 1 := toInt_offset (by omega)
  funext c
  by_cases hc : ∃ i : Int64, pos.toInt ≤ i.toInt ∧ i.toInt ≤ n.toInt + 1 ∧ c = cell a i
  · obtain ⟨i, hi, hin, rfl⟩ := hc
    by_cases hlast : i.toInt = n.toInt + 1
    · obtain rfl : i = offset n 1 := Int64.toInt_inj.mp (by omega)
      rw [h'.last (by omega) (by omega) ?_, hfree]
      rintro rfl
      exact absurd hlow (by decide)
    · have hlt : i < offset n 1 := Int64.lt_iff_toInt_lt.mpr (by omega)
      have hsucc := toInt_succ hlt
      have hback : i + 1 - 1 = i := by
        apply Int64.toInt_inj.mp
        rw [toInt_pred (Int64.lt_iff_toInt_lt.mpr (by omega) : i < i + 1)]
        omega
      rw [h'.shifted i hi (by omega), h.shifted (i + 1) (by omega) (by omega), hback]
  · have hout : ∀ i : Int64, pos.toInt ≤ i.toInt → i.toInt ≤ n.toInt + 1 → c ≠ cell a i :=
      fun i hi hin heq => hc ⟨i, hi, hin, heq⟩
    rw [h'.kept c fun i hi hin => hout i hi (by omega), h.kept c hout]

/-- The call raises an error, and the contents of all tables are as before. -/
def Refused {α : Type} (m : LibM W α) (p : Process W) : Prop :=
  Ends m p (fun _ _ => False) fun e p' => e = .panic "position out of bounds" ∧
    ∀ w key, p'.L.rawGet w key = p.L.rawGet w key

theorem refused_of_error {α : Type} {m : LibM W α}
    (hrun : m p = .error (.panic "position out of bounds") p₁)
    (hsame : ∀ w key, p₁.L.rawGet w key = p.L.rawGet w key) : Refused m p := by
  unfold Refused Ends
  rw [hrun]
  exact ⟨rfl, hsame⟩

/-- A list that the library can work on: no nil, and no longer than `#` counts. -/
structure Listed (a : Addr) (p : Process W) (xs : List TValue) : Prop where
  ready : Ready (· = a) p
  len : p.L.Lacks a .len
  holds : Holds p.L a xs
  proper : .nil ∉ xs
  length_le : xs.length ≤ 10000001

variable (host) in
theorem Listed.measured (h : Listed a p xs) :
    ∃ p₁, Measured host a p (Int64.ofNat xs.length) p₁ :=
  measured_list host h.ready.wf (h.ready.plain a rfl).table h.len h.holds h.proper h.length_le

theorem Listed.ok (h : Listed a p xs) : (elements host (· = a) p.L).Ok p :=
  ⟨h.ready, .refl p.L⟩

theorem Listed.toInt_length (h : Listed a p xs) :
    (Int64.ofNat xs.length).toInt = xs.length :=
  toInt_ofNat (by have := h.length_le; omega)

theorem Listed.insert (h : Listed a p xs) (hw : StandsFor host p.L w pos)
    (hpos : 1 ≤ pos.toInt) (hle : pos.toInt ≤ xs.length + 1) (v : TValue) :
    Returns (tabInsert host [.table a, w, v]) p fun r p₁ => r = [] ∧
      (elements host (· = a) p.L).Ok p₁ ∧
      Inserted a (Int64.ofNat xs.length) pos v ((elements host (· = a) p.L).view p)
        ((elements host (· = a) p.L).view p₁) ∧
      Holds p₁.L a (xs.insertIdx (pos.toInt - 1).toNat v) := by
  obtain ⟨p₁, hlen⟩ := h.measured host
  have hn := h.toInt_length
  have hsmall := h.length_le
  have hrange : InsertPosition (Int64.ofNat xs.length) pos := ⟨hpos, by omega⟩
  apply (tabInsert_inserts h.ok rfl hlen hw (by omega) hrange v).imp
  rintro r p₂ ⟨hr, hok, hinserted⟩
  exact ⟨hr, hok, hinserted, fun i hi => hinserted.holds hn hrange h.holds hi⟩

theorem Listed.lacks_len (h : Listed a p xs) {p₁ : Process W}
    (hok : (elements host (· = a) p.L).Ok p₁) : p₁.L.Lacks a .len := by
  obtain ⟨t, ht⟩ := (h.ready.plain a rfl).table
  exact h.len.elementsOnly hok.2 h.ready.wf ht

theorem Listed.inserted (h : Listed a p xs) {p₁ : Process W}
    (hok : (elements host (· = a) p.L).Ok p₁)
    (hholds : Holds p₁.L a (xs.insertIdx (pos.toInt - 1).toNat v))
    (hle : (pos.toInt - 1).toNat ≤ xs.length) (hv : v ≠ .nil) (hlen : xs.length < 10000001) :
    Listed a p₁ (xs.insertIdx (pos.toInt - 1).toNat v) where
  ready := hok.1
  len := h.lacks_len hok
  holds := hholds
  proper := by
    intro hmem
    rcases List.eq_or_mem_of_mem_insertIdx hmem with heq | hold
    · exact hv heq.symm
    · exact h.proper hold
  length_le := by
    rw [List.length_insertIdx_of_le_length hle]
    omega

theorem Listed.remove_inserted (h : Listed a p xs) (hw : StandsFor host p.L w pos)
    (hpos : 1 ≤ pos.toInt) (hle : pos.toInt ≤ xs.length + 1)
    (hok : (elements host (· = a) p.L).Ok p₁)
    (hinserted : Inserted a (Int64.ofNat xs.length) pos v
      ((elements host (· = a) p.L).view p) ((elements host (· = a) p.L).view p₁))
    (hholds : Holds p₁.L a (xs.insertIdx (pos.toInt - 1).toNat v))
    (hv : v ≠ .nil) (hlen : xs.length < 10000001) :
    Returns (tabRemove host [.table a, w]) p₁ fun r p₂ => r = [v] ∧
      ∀ b key, Canonical key → p₂.L.rawGet (.table b) key = p.L.rawGet (.table b) key := by
  have hlist := h.inserted hok hholds (by omega) hv hlen
  obtain ⟨p₁', hmeasured⟩ := hlist.measured host
  have hn := h.toInt_length
  have hn' := hlist.toInt_length
  have hcount : (xs.insertIdx (pos.toInt - 1).toNat v).length = xs.length + 1 :=
    List.length_insertIdx_of_le_length (by omega) _
  have hnext : Int64.ofNat (xs.insertIdx (pos.toInt - 1).toNat v).length =
      offset (Int64.ofNat xs.length) 1 := by
    apply Int64.toInt_inj.mp
    rw [hn', toInt_offset (by omega)]
    omega
  have hw₁ : StandsFor host p₁.L w pos :=
    fun args idx q hq => hw args idx q (hq.trans hok.2.interned)
  apply (tabRemove_removes hok rfl hmeasured hw₁ (by omega)
    (Or.inr ⟨hpos, by omega⟩)).imp
  rintro r p₂ ⟨rfl, -, hremoved⟩
  rw [hnext] at hremoved
  have hfree : (elements host (· = a) p.L).view p
      (cell a (offset (Int64.ofNat xs.length) 1)) = .nil := by
    have hoff : (offset (Int64.ofNat xs.length) 1).toInt = xs.length + 1 := by
      rw [toInt_offset (by omega)]
      omega
    have hget := h.holds (offset (Int64.ofNat xs.length) 1) (by omega)
    rwa [List.getD_eq_default _ _ (by omega)] at hget
  have hsame := Removed.restores hinserted hremoved ⟨hpos, by omega⟩ (by omega) hfree
  refine ⟨by rw [hinserted.new], fun b key hkey => ?_⟩
  exact congrFun hsame (b, ⟨key, hkey⟩)

theorem Listed.remove (h : Listed a p xs) (hw : StandsFor host p.L w pos)
    (hpos : 1 ≤ pos.toInt) (hle : pos.toInt ≤ xs.length) :
    Returns (tabRemove host [.table a, w]) p fun r p₁ =>
      r = [xs.getD (pos.toInt - 1).toNat .nil] ∧
      Holds p₁.L a (xs.eraseIdx (pos.toInt - 1).toNat) ∧ SameElsewhere a p.L p₁.L := by
  obtain ⟨p₁, hlen⟩ := h.measured host
  have hn := h.toInt_length
  have hsmall := h.length_le
  apply (tabRemove_removes h.ok rfl hlen hw (by omega) (Or.inr ⟨hpos, by omega⟩)).imp
  rintro r p₂ ⟨rfl, -, hremoved⟩
  refine ⟨?_, fun i hi => hremoved.holds hn hpos (by omega) h.holds hi,
    hremoved.sameElsewhere hpos⟩
  exact congrArg (fun x => [x]) (h.holds pos hpos)

theorem Listed.remove_free (h : Listed a p xs) (hw : StandsFor host p.L w pos)
    (hpos : pos.toInt = xs.length + 1 ∨ pos.toInt = 0 ∧ xs = []) :
    Returns (tabRemove host [.table a, w]) p fun r p₁ =>
      r = [p.L.rawGet (.table a) (.integer pos)] ∧
      p₁.L.rawGet (.table a) (.integer pos) = .nil ∧
      ∀ b key, Canonical key → ¬ (b = a ∧ key = .integer pos) →
        p₁.L.rawGet (.table b) key = p.L.rawGet (.table b) key := by
  obtain ⟨p₁, hlen⟩ := h.measured host
  have hn := h.toInt_length
  have hsmall := h.length_le
  have hrange : RemovePosition (Int64.ofNat xs.length) pos := by
    rcases hpos with hpos | ⟨hzero, rfl⟩
    · exact Or.inr ⟨by omega, by omega⟩
    · left
      apply Int64.toInt_inj.mp
      rw [hn, hzero]
      rfl
  apply (tabRemove_removes h.ok rfl hlen hw (by omega) hrange).imp
  rintro r p₂ ⟨rfl, -, hremoved⟩
  refine ⟨rfl, ?_, ?_⟩
  · rcases hpos with hpos | ⟨hzero, rfl⟩
    · have hkept := hremoved.kept (cell a pos) fun i hi hin => by omega
      have hget := h.holds pos (by omega)
      rw [List.getD_eq_default _ _ (by omega)] at hget
      exact hkept.trans hget
    · have hpos0 : pos = Int64.ofNat ([] : List TValue).length := by
        apply Int64.toInt_inj.mp
        rw [hn, hzero]
        rfl
      have hlast := hremoved.last (by omega) (by omega) fun _ => rfl
      rwa [← hpos0] at hlast
  · intro b key hkey hother
    apply hremoved.kept (b, ⟨key, hkey⟩)
    intro i hi hin heq
    obtain ⟨rfl, hk⟩ := Prod.mk.inj heq
    apply hother ⟨rfl, ?_⟩
    have hikey : key = .integer i := congrArg Subtype.val hk
    rw [hikey]
    congr 1
    apply Int64.toInt_inj.mp
    rcases hpos with hpos | ⟨hzero, rfl⟩
    · omega
    · have : ([] : List TValue).length = 0 := rfl
      omega

theorem Listed.insert_refused (h : Listed a p xs) (hw : StandsFor host p.L w pos)
    (hpos : ¬ (1 ≤ pos.toInt ∧ pos.toInt ≤ xs.length + 1)) (v : TValue) :
    Refused (tabInsert host [.table a, w, v]) p := by
  obtain ⟨p₁, hlen⟩ := h.measured host
  have hn := h.toInt_length
  have hsmall := h.length_le
  refine refused_of_error (tabInsert_rejects hlen hw (by omega) ?_ v) hlen.same
  rintro ⟨hlow, hhigh⟩
  exact hpos ⟨hlow, by omega⟩

theorem Listed.remove_refused (h : Listed a p xs) (hw : StandsFor host p.L w pos)
    (hpos : ¬ (1 ≤ pos.toInt ∧ pos.toInt ≤ xs.length + 1))
    (hzero : ¬ (pos.toInt = 0 ∧ xs = [])) :
    Refused (tabRemove host [.table a, w]) p := by
  obtain ⟨p₁, hlen⟩ := h.measured host
  have hn := h.toInt_length
  have hsmall := h.length_le
  refine refused_of_error (tabRemove_rejects hlen hw (by omega) ?_) hlen.same
  rintro (rfl | ⟨hlow, hhigh⟩)
  · have hempty : ¬ xs.length = 0 := fun h0 => hzero ⟨by omega, List.length_eq_zero_iff.mp h0⟩
    exact hpos ⟨by omega, by omega⟩
  · exact hpos ⟨hlow, by omega⟩

/-- Insertion and removal at every position of a list. -/
theorem insert_remove_list (h : Listed a p xs) (hw : StandsFor host p.L w pos) :
    (∀ v, 1 ≤ pos.toInt → pos.toInt ≤ xs.length + 1 →
      Returns (tabInsert host [.table a, w, v]) p fun r p₁ => r = [] ∧
        Holds p₁.L a (xs.insertIdx (pos.toInt - 1).toNat v) ∧ SameElsewhere a p.L p₁.L ∧
        (v ≠ .nil → xs.length < 10000001 →
          Returns (tabRemove host [.table a, w]) p₁ fun r p₂ => r = [v] ∧
            ∀ b key, Canonical key →
              p₂.L.rawGet (.table b) key = p.L.rawGet (.table b) key)) ∧
    (∀ v, ¬ (1 ≤ pos.toInt ∧ pos.toInt ≤ xs.length + 1) →
      Refused (tabInsert host [.table a, w, v]) p) ∧
    (1 ≤ pos.toInt → pos.toInt ≤ xs.length →
      Returns (tabRemove host [.table a, w]) p fun r p₁ =>
        r = [xs.getD (pos.toInt - 1).toNat .nil] ∧
        Holds p₁.L a (xs.eraseIdx (pos.toInt - 1).toNat) ∧ SameElsewhere a p.L p₁.L) ∧
    (pos.toInt = xs.length + 1 ∨ pos.toInt = 0 ∧ xs = [] →
      Returns (tabRemove host [.table a, w]) p fun r p₁ =>
        r = [p.L.rawGet (.table a) (.integer pos)] ∧
        p₁.L.rawGet (.table a) (.integer pos) = .nil ∧
        ∀ b key, Canonical key → ¬ (b = a ∧ key = .integer pos) →
          p₁.L.rawGet (.table b) key = p.L.rawGet (.table b) key) ∧
    (¬ (1 ≤ pos.toInt ∧ pos.toInt ≤ xs.length + 1) → ¬ (pos.toInt = 0 ∧ xs = []) →
      Refused (tabRemove host [.table a, w]) p) := by
  refine ⟨fun v hpos hle => ?_, fun v hpos => h.insert_refused hw hpos v,
    fun hpos hle => h.remove hw hpos hle, h.remove_free hw, h.remove_refused hw⟩
  apply (h.insert hw hpos hle v).imp
  rintro r p₁ ⟨hr, hok, hinserted, hholds⟩
  exact ⟨hr, hholds, hinserted.sameElsewhere hpos, fun hv hlen =>
    h.remove_inserted hw hpos hle hok hinserted hholds hv hlen⟩

/-! ## Lists at hand -/

theorem get_arrayOnly {I : InternedStrings} {xs : List TValue} (h : xs.length < 2 ^ 63)
    {i : Int64} (hi : 1 ≤ i.toInt) :
    (arrayOnly xs).get I (.integer i) = xs.getD (i.toInt - 1).toNat .nil := by
  by_cases hlen : i.toInt ≤ xs.length
  · exact get_array (arrayIndex?_eq_some.mpr ⟨by omega, by show _ < xs.length; omega⟩)
  · rw [List.getD_eq_default _ _ (by omega)]
    apply (arrayOnly_wf h).get_absent (canonical_integer i)
    · exact arrayIndex?_eq_none.mpr (Or.inr (by show (xs.length : Int) < _; omega))
    · intro j hj hkey
      have hused := (slotView_eq_key.mp hkey).1
      rw [node_arrayOnly] at hused
      exact nomatch hused

theorem listProcess_listed {xs : List TValue} (h : xs.length ≤ 64) (hproper : .nil ∉ xs) :
    Listed 1 (listProcess xs) xs where
  ready := listProcess_ready (by omega) fun _ => id
  len := rfl
  holds i hi := get_arrayOnly (by omega) hi
  proper := hproper
  length_le := by omega

theorem insert_remove_list_first :
    Returns (tabInsert (answering .nil) [.table 1, .integer 1, .boolean true])
      (listProcess [.integer 10, .integer 20]) fun r p₁ => r = [] ∧
        Holds p₁.L 1 [.boolean true, .integer 10, .integer 20] ∧
        Returns (tabRemove (answering .nil) [.table 1, .integer 1]) p₁ fun r _ =>
          r = [.boolean true] := by
  have hall := insert_remove_list
    (listProcess_listed (by decide : [TValue.integer 10, .integer 20].length ≤ 64) (by decide))
    (standsFor_integer (answering .nil) _ 1)
  apply (hall.1 (.boolean true) (by decide) (by decide)).imp
  rintro r p₁ ⟨hr, hholds, -, hback⟩
  exact ⟨hr, hholds, (hback (by decide) (by decide)).imp fun _ _ h => h.1⟩

/-! ## A nil in the list ends it for the length operator -/

def longTable : Table where
  array := List.replicate 64 (.integer 0)
  hash := (List.replicate 8 {}).set 1 ⟨.integer 65, .integer 0, true⟩
  structureVersion := 2

def longProcess : Process Unit := oneTable longTable

theorem longTable_stored :
    Table.set longProcess.L.interned 3 (arrayOnly (List.replicate 64 (.integer 0)))
      (.integer 65) (.integer 0) = .ok ⟨longTable, [.integer 65, .integer 0]⟩ := by
  decide

theorem longTable_ok : StoreOk longProcess.L.interned
    (arrayOnly (List.replicate 64 (.integer 0))) (.integer 65)
    (.integer 0) ⟨longTable, [.integer 65, .integer 0]⟩ := by
  have hwf : (arrayOnly (List.replicate 64 (.integer 0))).Wf longProcess.L.interned :=
    arrayOnly_wf (by decide)
  obtain ⟨r, hr, hok⟩ := set_ok hwf (canonical_integer 65).1 (.integer 0) (Nat.le_refl 3)
  obtain rfl := Except.ok.inj (hr.symm.trans longTable_stored)
  exact hok

theorem longProcess_listed : Listed 1 longProcess (List.replicate 65 (.integer 0)) where
  ready := oneTable_ready longTable_ok.wf rfl fun _ => id
  len := rfl
  holds i hi := by
    have hget := longTable_ok.get_eq (.integer i) (canonical_integer i).1
    show longTable.get longProcess.L.interned (.integer i) = _
    rw [(canonical_integer i).2, (canonical_integer 65).2] at hget
    rw [hget]
    by_cases h65 : i = 65
    · subst h65
      rfl
    · rw [if_neg (by simpa using h65), get_arrayOnly (by decide) hi]
      have hne : i.toInt ≠ 65 := fun h => h65 (Int64.toInt_inj.mp h)
      simp only [List.getD_eq_getElem?_getD, List.getElem?_replicate]
      by_cases hlt : (i.toInt - 1).toNat < 64
      · rw [if_pos hlt, if_pos (by omega)]
      · rw [if_neg hlt, if_neg (by omega)]
  proper := by decide
  length_le := by decide

/-- After `table.insert(t, 65, nil)` the length operator stops before the nil. -/
theorem insert_nil_not_restored : ∃ p₁ p₂,
    tabInsert (answering .nil) [.table 1, .integer 65, .nil] longProcess = .ok [] p₁ ∧
    tabRemove (answering .nil) [.table 1, .integer 65] p₁ = .ok [.nil] p₂ ∧
    longProcess.L.rawGet (.table 1) (.integer 66) = .nil ∧
    p₂.L.rawGet (.table 1) (.integer 66) = .integer 0 := by
  have hlist := longProcess_listed
  have hinsert := hlist.insert (standsFor_integer (answering .nil) _ 65) (by decide)
    (by decide) .nil
  obtain ⟨r, p₁, hrun₁, rfl, hok, -, hholds⟩ := returns_iff.mp hinsert
  obtain ⟨p₁', t, ht, hrun, honly, hsame⟩ :=
    auxGetn_plain (answering .nil) (hok.1.plain 1 rfl).table (hlist.lacks_len hok)
  have hnew : ((List.replicate 65 (.integer 0)).insertIdx ((65 : Int64).toInt - 1).toNat .nil) =
      List.replicate 64 (TValue.integer 0) ++ [.nil, .integer 0] := by decide
  rw [hnew] at hholds
  have helement : ∀ k, 1 ≤ k → k < 2 ^ 63 → t.element p₁'.L.interned k =
      (List.replicate 64 (TValue.integer 0) ++ [TValue.nil, .integer 0]).getD (k - 1) .nil := by
    intro k hk hlt
    have hint := toInt_ofNat hlt
    have hget := (holds_iff hsame).mpr hholds (Int64.ofNat k) (by omega)
    rw [State.rawGet, ht, hint, show ((k : Int) - 1).toNat = k - 1 by omega] at hget
    exact hget
  have hlength : tableLength p₁'.L.interned t = 64 := by
    apply tableLength_of_gap (n := 64)
    · intro k hk hle
      rw [helement k hk (by omega), List.getD_eq_getElem?_getD,
        List.getElem?_append_left (by simp; omega), List.getElem?_replicate, if_pos (by omega)]
      simp
    · rw [helement 65 (by decide) (by decide)]
      rfl
    · decide
    · left
      obtain ⟨t', ht', -, harray, -⟩ := (hok.2.trans honly).some 1 longTable rfl
      obtain rfl := Option.some.inj (ht.symm.trans ht')
      exact harray
  rw [hlength] at hrun
  have hmeasured : Measured (answering .nil) 1 p₁ 64 p₁' := ⟨hrun, honly, hsame⟩
  have hremove := tabRemove_removes (D := (· = 1)) hok rfl hmeasured
    (standsFor_integer _ _ 65) (by decide) (Or.inr ⟨by decide, by decide⟩)
  obtain ⟨r, p₂, hrun₂, hr, -, hremoved⟩ := returns_iff.mp hremove
  have hkept : ∀ i : Int64, p₂.L.rawGet (.table 1) (.integer i) =
      p₁.L.rawGet (.table 1) (.integer i) := by
    intro i
    apply hremoved.kept (cell 1 i)
    intro j hj hj64
    have h65 : (65 : Int64).toInt = 65 := rfl
    have h64 : (64 : Int64).toInt = 64 := rfl
    omega
  have hr' : r = [.nil] := hr.trans (congrArg (fun x => [x]) (hholds 65 (by decide)))
  rw [hr'] at hrun₂
  refine ⟨p₁, p₂, hrun₁, hrun₂, hlist.holds 66 (by decide), ?_⟩
  rw [hkept 66]
  exact hholds 66 (by decide)

end Luatier.TableLib
