import Luatier.Stdlib.SortSpec
import Luatier.Stdlib.TableList

/-!
# Sorting a table

The quicksort on the positions `1 .. n` of a table, which it reads and writes by
itself: the table has no index metamethods, or none of the elements is nil.
-/

namespace Luatier.TableLib

open Cells Rearrange Table

variable {W : Type} {host : Host W} {a : Addr} {n : ℕ} {p q q' : Process W}

/-! ## Positions -/

/-- The element at a position; positions are indices of type `unsigned int`. -/
def elementAt (a : Addr) (L : State) (i : ℕ) : TValue :=
  if i < 2 ^ 32 then L.rawGet (.table a) (.integer (Int64.ofNat i)) else .nil

def AllPresent (a : Addr) (n : ℕ) (L : State) : Prop :=
  ∀ i, 1 ≤ i ∧ i ≤ n → elementAt a L i ≠ .nil

/-- No access to the positions runs other code. -/
structure Direct (a : Addr) (n : ℕ) (L : State) : Prop where
  wf : L.TablesWf
  table : ∃ t, L.table? a = some t
  plain : L.Plain a ∨ AllPresent a n L

theorem elementAt_wide (L : State) (i : UInt32) :
    elementAt a L i.toNat = L.rawGet (.table a) (.integer (wide i)) := by
  rw [elementAt, if_pos i.toNat_lt, wide]

theorem elementAt_congr {L L' : State} (h : ∀ key, Canonical key →
    L'.rawGet (.table a) key = L.rawGet (.table a) key) : elementAt a L' = elementAt a L := by
  funext i
  unfold elementAt
  rw [h _ (canonical_integer _)]

theorem elementAt_update {L L' : State} {i : UInt32} {v : TValue}
    (h : ∀ b key, Canonical key → L'.rawGet (.table b) key =
      if b = a ∧ key = .integer (wide i) then v else L.rawGet (.table b) key) :
    elementAt a L' = Function.update (elementAt a L) i.toNat v := by
  have hi := i.toNat_lt
  funext k
  rw [Function.update_apply]
  unfold elementAt
  by_cases hk : k < 2 ^ 32
  · rw [if_pos hk, if_pos hk, h a _ (canonical_integer _)]
    by_cases heq : k = i.toNat
    · rw [if_pos heq, heq]
      exact if_pos ⟨rfl, rfl⟩
    · rw [if_neg heq]
      apply if_neg
      rintro ⟨-, hkey⟩
      have hint := congrArg Int64.toInt (TValue.integer.inj hkey)
      rw [wide, toInt_ofNat (by omega), toInt_ofNat (by omega)] at hint
      omega
  · rw [if_neg hk, if_neg hk, if_neg (by omega)]

theorem Direct.elementsOnly {L L' : State} (h : Direct a n L) (honly : State.ElementsOnly L L')
    (hpresent : L.Plain a ∨ AllPresent a n L') : Direct a n L' where
  wf := honly.tablesWf h.wf
  table := by
    obtain ⟨t, ht⟩ := h.table
    obtain ⟨t', ht', -⟩ := honly.some a t ht
    exact ⟨t', ht'⟩
  plain := hpresent.imp (fun hplain => hplain.elementsOnly honly h.wf) id

/-! ## Accesses -/

theorem geti_direct {i : UInt32} (h : Direct a n q.L) (hi : 1 ≤ i.toNat ∧ i.toNat ≤ n) :
    Returns (geti host (.table a) (wide i)) q fun v q' => v = elementAt a q.L i.toNat ∧
      Direct a n q'.L ∧ (∀ w key, q'.L.rawGet w key = q.L.rawGet w key) ∧
      (q.L.Plain a → q'.L.Plain a) ∧ q'.trace = .read (.table a) (wide i) :: q.trace := by
  have haccess : ∃ L', Access.metaIndex host.site none q.L (.table a) (.integer (wide i)) =
      .done (q.L.rawGet (.table a) (.integer (wide i))) L' ∧
      State.ElementsOnly q.L L' ∧ ∀ w key, L'.rawGet w key = q.L.rawGet w key := by
    rcases h.plain with hplain | hpresent
    · exact metaIndex_plain hplain host.site (wide i)
    · have hv := hpresent i.toNat hi
      rw [elementAt_wide] at hv
      exact ⟨q.L, metaIndex_present hv host.site, .refl _, fun _ _ => rfl⟩
  obtain ⟨L', hdone, honly, hraw⟩ := haccess
  apply returns_iff.mpr
  refine ⟨_, _, geti_done hdone, (elementAt_wide q.L i).symm, ?_, hraw,
    fun hplain => hplain.elementsOnly honly h.wf, rfl⟩
  apply h.elementsOnly honly
  rcases h.plain with hplain | hpresent
  · exact Or.inl hplain
  · right
    rwa [AllPresent, elementAt_congr fun key _ => hraw _ key]

theorem seti_direct {i : UInt32} {v : TValue} (h : Direct a n q.L)
    (hi : 1 ≤ i.toNat ∧ i.toNat ≤ n) (hv : q.L.Plain a ∨ v ≠ .nil) :
    Returns (seti host (.table a) (wide i) v) q fun _ q' => Direct a n q'.L ∧
      (∀ b key, Canonical key → q'.L.rawGet (.table b) key =
        if b = a ∧ key = .integer (wide i) then v else q.L.rawGet (.table b) key) ∧
      (q.L.Plain a → q'.L.Plain a) ∧ q'.trace = .write (.table a) (wide i) :: q.trace := by
  have haccess : ∃ L', Access.metaNewindex host.site none q.L (.table a) (.integer (wide i)) v =
      .done () L' ∧ State.ElementsOnly q.L L' ∧ ∀ b k, Canonical k → L'.rawGet (.table b) k =
        if b = a ∧ k = .integer (wide i) then v else q.L.rawGet (.table b) k := by
    rcases h.plain with hplain | hpresent
    · exact metaNewindex_plain h.wf hplain host.site (wide i) v
    · have hold := hpresent i.toNat hi
      rw [elementAt_wide] at hold
      exact metaNewindex_present h.wf h.table hold host.site v
  obtain ⟨L', hdone, honly, hraw⟩ := haccess
  apply returns_iff.mpr
  refine ⟨_, _, seti_done hdone, ?_, hraw, fun hplain => hplain.elementsOnly honly h.wf, rfl⟩
  apply h.elementsOnly honly
  rcases hv with hplain | hv
  · exact Or.inl hplain
  · rcases h.plain with hplain | hpresent
    · exact Or.inl hplain
    · right
      intro k hk
      rw [elementAt_update hraw, Function.update_apply]
      split
      · exact hv
      · exact hpresent k hk

/-! ## What sorting keeps -/

/-- Accesses stay in the range, which has the elements of `L₀` at every comparison. -/
def Within (a : Addr) (n : ℕ) (L₀ : State) : LibEvent → Prop
  | .read t i => t = .table a ∧ 1 ≤ i.toInt ∧ i.toInt ≤ n
  | .write t i => t = .table a ∧ 1 ≤ i.toInt ∧ i.toInt ≤ n
  | .compare _ _ L => Rearranged 1 n (elementAt a L₀) (elementAt a L)

/-- What has become of the table since the process `p`. -/
structure Sorting (a : Addr) (n : ℕ) (p q : Process W) : Prop where
  direct : Direct a n q.L
  rearranged : Rearranged 1 n (elementAt a p.L) (elementAt a q.L)
  kept : ∀ key, Canonical key → (∀ i, 1 ≤ i ∧ i ≤ n → key ≠ .integer (Int64.ofNat i)) →
    q.L.rawGet (.table a) key = p.L.rawGet (.table a) key
  trace : ∃ events, q.trace = events ++ p.trace ∧ ∀ e ∈ events, Within a n p.L e

theorem Sorting.start (h : Direct a n p.L) : Sorting a n p p where
  direct := h
  rearranged := .refl _ _ _
  kept _ _ _ := rfl
  trace := ⟨[], rfl, by simp⟩

theorem Sorting.next (h : Sorting a n p q) {events : List LibEvent} (hdirect : Direct a n q'.L)
    (hmoved : Rearranged 1 n (elementAt a q.L) (elementAt a q'.L))
    (hkept : ∀ key, Canonical key → (∀ i, 1 ≤ i ∧ i ≤ n → key ≠ .integer (Int64.ofNat i)) →
      q'.L.rawGet (.table a) key = q.L.rawGet (.table a) key)
    (htrace : q'.trace = events ++ q.trace) (hwithin : ∀ e ∈ events, Within a n p.L e) :
    Sorting a n p q' where
  direct := hdirect
  rearranged := h.rearranged.trans hmoved
  kept key hkey hother := (hkept key hkey hother).trans (h.kept key hkey hother)
  trace := by
    obtain ⟨old, hold, hin⟩ := h.trace
    refine ⟨events ++ old, by rw [htrace, hold, List.append_assoc], ?_⟩
    intro e he
    rcases List.mem_append.mp he with he | he
    · exact hwithin e he
    · exact hin e he

theorem toInt_wide (i : UInt32) : (wide i).toInt = i.toNat :=
  toInt_ofNat (by have := i.toNat_lt; omega)

theorem sortSwap_direct {i j : UInt32} (h : Sorting a n p q) (hi : 1 ≤ i.toNat ∧ i.toNat ≤ n)
    (hj : 1 ≤ j.toNat ∧ j.toNat ≤ n) : Returns (sortSwap host (.table a) i j) q fun _ q' =>
      Sorting a n p q' ∧
        elementAt a q'.L = elementAt a q.L ∘ Equiv.swap i.toNat j.toNat := by
  apply (geti_direct h.direct hi).bind
  rintro _ q₁ ⟨rfl, hdirect₁, hraw₁, hplain₁, htrace₁⟩
  have helem₁ : elementAt a q₁.L = elementAt a q.L := elementAt_congr fun key _ => hraw₁ _ key
  apply (geti_direct hdirect₁ hj).bind
  rintro _ q₂ ⟨rfl, hdirect₂, hraw₂, hplain₂, htrace₂⟩
  have helem₂ : elementAt a q₂.L = elementAt a q.L :=
    (elementAt_congr fun key _ => hraw₂ _ key).trans helem₁
  rw [helem₁]
  have hpresent : ∀ k, 1 ≤ k ∧ k ≤ n → q.L.Plain a ∨ elementAt a q.L k ≠ .nil := fun k hk =>
    h.direct.plain.imp id fun hpresent => hpresent k hk
  apply (seti_direct hdirect₂ hi ((hpresent _ hj).imp (hplain₂ ∘ hplain₁) id)).bind
  rintro _ q₃ ⟨hdirect₃, hraw₃, hplain₃, htrace₃⟩
  apply (seti_direct hdirect₃ hj
    ((hpresent _ hi).imp (hplain₃ ∘ hplain₂ ∘ hplain₁) id)).imp
  rintro _ q₄ ⟨hdirect₄, hraw₄, -, htrace₄⟩
  have helem₄ : elementAt a q₄.L = elementAt a q.L ∘ Equiv.swap i.toNat j.toNat := by
    rw [elementAt_update hraw₄, elementAt_update hraw₃, helem₂, Equiv.swap_comm,
      Equiv.comp_swap_eq_update]
  have htrace : q₄.trace = [.write (.table a) (wide j), .write (.table a) (wide i),
      .read (.table a) (wide j), .read (.table a) (wide i)] ++ q.trace := by
    rw [htrace₄, htrace₃, htrace₂, htrace₁]
    rfl
  refine ⟨h.next hdirect₄ ?_ ?_ htrace ?_, helem₄⟩
  · rw [helem₄]
    exact .swap hi hj _
  · intro key hkey hother
    rw [hraw₄ a key hkey, if_neg fun heq => hother _ hj heq.2, hraw₃ a key hkey,
      if_neg fun heq => hother _ hi heq.2, hraw₂, hraw₁]
  · intro e he
    simp only [List.mem_cons, List.not_mem_nil, or_false] at he
    rcases he with rfl | rfl | rfl | rfl <;> simp only [Within, toInt_wide, true_and] <;> omega

/-! ## Comparisons -/

/-- A comparison leaves the table as it is. -/
structure Same (a : Addr) (n : ℕ) (q q' : Process W) : Prop where
  direct : Direct a n q'.L
  raw : ∀ key, Canonical key → q'.L.rawGet (.table a) key = q.L.rawGet (.table a) key

theorem Same.refl (h : Direct a n q.L) : Same a n q q := ⟨h, fun _ _ => rfl⟩

/-- Comparing two values of `S` does not modify the table, whatever the answer. -/
def Unmodifying (host : Host W) (a : Addr) (n : ℕ) (cmp : TValue) (S : TValue → Prop) : Prop :=
  ∀ (x y : TValue) (q : Process W), S x → S y → Direct a n q.L →
    Ends (sortCompare host cmp x y) q (fun _ q' => Same a n q q') fun _ q' => Same a n q q'

/-- An error that Lua code can catch. -/
def Raised (e : Fault) : Prop := ∃ text, e = .panic text

/-- The program does not access the table by itself, and its errors can be caught. -/
def Quiet {α : Type} (m : LibM W α) : Prop :=
  ∀ q, Ends m q (fun _ q' => q'.trace = q.trace) fun e q' => Raised e ∧ q'.trace = q.trace

namespace Quiet

variable {α β : Type} {m m' : LibM W α}

theorem bind {f : α → LibM W β} (hm : Quiet m) (hf : ∀ v, Quiet (f v)) : Quiet (m >>= f) := by
  intro q
  apply (hm q).bind
  intro v q₁ htrace
  rw [← htrace]
  exact hf v q₁

theorem ite {c : Prop} [Decidable c] (hm : Quiet m) (hm' : Quiet m') :
    Quiet (if c then m else m') := by
  intro q
  apply ends_ite
  · intro _
    exact hm q
  · intro _
    exact hm' q

theorem pure (v : α) : Quiet (pure v : LibM W α) := fun _ => rfl

theorem panic (text : String) : Quiet (panic text : LibM W α) := fun _ => ⟨⟨text, rfl⟩, rfl⟩

theorem inState (f : State → α) : Quiet (inState f : LibM W α) := fun _ => rfl

theorem getMetamethod (v : TValue) (name : String) :
    Quiet (getMetamethod v name : LibM W TValue) := fun _ => rfl

theorem call (f : TValue) (args : List TValue) : Quiet (call host f args) := by
  intro q
  unfold Ends TableLib.call
  cases host.call f args (q.L, q.world) with
  | ok v s => exact rfl
  | error e s => exact ⟨⟨e, rfl⟩, rfl⟩

theorem metaLt (x y : TValue) : Quiet (metaLt host x y) := by
  have hhandler : ∀ mm, Quiet (if mm.isFunction = true then do
      return (← TableLib.call host mm [x, y]).isTruthy
    else do TableLib.panic (← TableLib.inState (host.raw.message .lt x y))) := by
    intro mm
    apply ite
    · exact (call mm [x, y]).bind fun v => pure _
    · exact (inState _).bind panic
  unfold TableLib.metaLt
  apply ite
  · exact pure _
  apply ite
  · exact inState _
  apply (getMetamethod x "__lt").bind
  intro mm
  apply ite
  · exact (getMetamethod y "__lt").bind hhandler
  · exact hhandler mm

theorem sortCompare (cmp x y : TValue) : Quiet (sortCompare host cmp x y) := by
  unfold TableLib.sortCompare
  apply ite
  · exact metaLt x y
  apply ite
  · exact (call cmp [x, y]).bind fun v => pure _
  · exact panic _

end Quiet

theorem sortCompIdx_sorting {cmp : TValue} {i j : UInt32} {Q : Bool → Process W → Prop}
    {E : Fault → Process W → Prop} (h : Sorting a n p q) (hi : 1 ≤ i.toNat ∧ i.toNat ≤ n)
    (hj : 1 ≤ j.toNat ∧ j.toNat ≤ n)
    (hcompare : ∀ q₁, Direct a n q₁.L → elementAt a q₁.L = elementAt a q.L →
      Ends (sortCompare host cmp (elementAt a q.L i.toNat) (elementAt a q.L j.toNat)) q₁
        (fun b q' => Same a n q₁ q' ∧ Q b q') (fun e q' => Same a n q₁ q' ∧ E e q')) :
    Ends (sortCompIdx host (.table a) cmp i j) q
      (fun b q' => Sorting a n p q' ∧ elementAt a q'.L = elementAt a q.L ∧ Q b q')
      (fun e q' => Sorting a n p q' ∧ Raised e ∧ E e q') := by
  apply (geti_direct h.direct hi).ends.bind
  rintro _ q₁ ⟨rfl, hdirect₁, hraw₁, -, htrace₁⟩
  have helem₁ : elementAt a q₁.L = elementAt a q.L := elementAt_congr fun key _ => hraw₁ _ key
  apply (geti_direct hdirect₁ hj).ends.bind
  rintro _ q₂ ⟨rfl, hdirect₂, hraw₂, -, htrace₂⟩
  have helem₂ : elementAt a q₂.L = elementAt a q.L :=
    (elementAt_congr fun key _ => hraw₂ _ key).trans helem₁
  rw [helem₁]
  let e : LibEvent := .compare (elementAt a q.L i.toNat) (elementAt a q.L j.toNat) q₂.L
  let q₃ : Process W := { q₂ with trace := e :: q₂.trace }
  have hrecorded : Sorting a n p q₃ := by
    have htrace : q₃.trace = [e, .read (.table a) (wide j), .read (.table a) (wide i)] ++
        q.trace := by
      show e :: q₂.trace = _
      rw [htrace₂, htrace₁]
      rfl
    apply h.next (show Direct a n q₃.L from hdirect₂) _ _ htrace
    · intro event hevent
      simp only [List.mem_cons, List.not_mem_nil, or_false] at hevent
      rcases hevent with rfl | rfl | rfl
      · show Rearranged 1 n (elementAt a p.L) (elementAt a q₂.L)
        rw [helem₂]
        exact h.rearranged
      · simp only [Within, toInt_wide, true_and]
        omega
      · simp only [Within, toInt_wide, true_and]
        omega
    · show Rearranged 1 n _ (elementAt a q₂.L)
      rw [helem₂]
      exact .refl _ _ _
    · intro key _ _
      show q₂.L.rawGet _ _ = _
      rw [hraw₂, hraw₁]
  have hafter : ∀ q', Same a n q₃ q' → q'.trace = q₃.trace →
      Sorting a n p q' ∧ elementAt a q'.L = elementAt a q.L := by
    intro q' hsame htrace
    have helem' : elementAt a q'.L = elementAt a q₂.L := elementAt_congr hsame.raw
    rw [← List.nil_append q₃.trace] at htrace
    refine ⟨hrecorded.next hsame.direct ?_ ?_ htrace (by simp), ?_⟩
    · rw [helem']
      exact .refl _ _ _
    · intro key hkey _
      exact hsame.raw key hkey
    · exact helem'.trans helem₂
  apply Ends.congr (show _ = sortCompare host cmp _ _ q₃ from rfl)
  apply ((hcompare q₃ hdirect₂ helem₂).and (Quiet.sortCompare cmp _ _ q₃)).mono
  · rintro b q' ⟨⟨hsame, hb⟩, htrace⟩
    exact ⟨(hafter q' hsame htrace).1, (hafter q' hsame htrace).2, hb⟩
  · rintro e q' ⟨⟨hsame, he⟩, hraised, htrace⟩
    exact ⟨(hafter q' hsame htrace).1, hraised, he⟩

/-! ## Lists at hand -/

theorem auxGetn_listProcess (v : TValue) (xs : List TValue) :
    auxGetn (answering v) (.table 1) (listProcess xs) =
      .ok (tableLength (listProcess xs).L.interned (arrayOnly xs)) (listProcess xs) := rfl

theorem elementAt_listProcess {xs : List TValue} (h : xs.length < 2 ^ 32) {i : ℕ}
    (hi : 1 ≤ i) : elementAt 1 (listProcess xs).L i = xs.getD (i - 1) .nil := by
  unfold elementAt
  split
  · have hint : (Int64.ofNat i).toInt = i := toInt_ofNat (by omega)
    have hget : (arrayOnly xs).get (listProcess xs).L.interned (.integer (Int64.ofNat i)) = _ :=
      get_arrayOnly (by omega) (by omega)
    rw [hint, show ((i : Int) - 1).toNat = i - 1 by omega] at hget
    exact hget
  · rw [List.getD_eq_default _ _ (by omega)]

theorem listProcess_direct {xs : List TValue} (h : xs.length < 2 ^ 63) :
    Direct 1 n (listProcess xs).L := by
  have hready : Ready (· = 1) (listProcess xs) := listProcess_ready h fun _ => id
  exact ⟨hready.wf, ⟨_, rfl⟩, Or.inl (hready.plain 1 rfl)⟩

theorem tableLength_arrayOnly {I : InternedStrings} {xs : List TValue}
    (h : xs.length < 2 ^ 62) (hlast : xs.getLast? ≠ some .nil) :
    tableLength I (arrayOnly xs) = Int64.ofNat xs.length := by
  rcases tableLength_eq (L := I) (t := arrayOnly xs) (by show xs.length < _; omega)
    with ⟨hnil, -⟩ | ⟨-, -, hlength⟩
  · exact absurd hnil hlast
  · obtain ⟨hle, -, hpresent, -⟩ := growInHash_spec (L := I) (t := arrayOnly xs) xs.length
    have hfree : (arrayOnly xs).element I (xs.length + 1) = .nil := by
      have hint : (Int64.ofNat (xs.length + 1)).toInt = (xs.length + 1 : ℕ) :=
        toInt_ofNat (by omega)
      have hget : (arrayOnly xs).get I (.integer (Int64.ofNat (xs.length + 1))) = _ :=
        get_arrayOnly (by omega) (by omega)
      rwa [List.getD_eq_default _ _ (by omega)] at hget
    rw [hlength]
    show Int64.ofNat (growInHash I (arrayOnly xs) xs.length) = _
    congr 1
    by_contra hne
    exact hpresent (xs.length + 1) (by omega) (by omega) hfree

def threeElements : List TValue := [.integer 30, .integer 10, .integer 20]

theorem auxGetn_three (v : TValue) : auxGetn (answering v) (.table 1) (listProcess threeElements) =
    .ok 3 (listProcess threeElements) := by
  rw [auxGetn_listProcess, tableLength_arrayOnly (by decide) (by decide)]
  rfl

theorem answering_unmodifying (v : TValue) (f : Addr) (S : TValue → Prop) :
    Unmodifying (answering v) a n (.function f) S :=
  fun _ _ _ _ _ h => Same.refl h

/-! ## Sorting is safe -/

theorem tabSort_eq {fuel : ℕ} {args : List TValue} {m : Int64} {p₁ : Process W}
    (hlen : auxGetn host (.table a) p = .ok m p₁) :
    tabSort host fuel (.table a :: args) p =
      (do sortLength host (.table a) (args.getD 0 .nil) fuel m; return []) p₁ := by
  have harg : (stackAt (.table a :: args) 1 : LibM W TValue) = pure (.table a) := rfl
  rw [tabSort, harg, pure_bind]
  show (auxGetn host (.table a) >>= _) p = _
  rw [bind_of_ok hlen]
  rfl

theorem auxGetn_same {m : Int64} {p₁ : Process W} (htable : ∃ t, p.L.table? a = some t)
    (hlacks : p.L.Lacks a .len) (hlen : auxGetn host (.table a) p = .ok m p₁) (v key : TValue) :
    p₁.L.rawGet v key = p.L.rawGet v key := by
  obtain ⟨p', t, -, hrun, -, hraw⟩ := auxGetn_plain host htable hlacks
  rw [hlen] at hrun
  cases hrun
  exact hraw v key

theorem auxsort_all {t cmp : TValue} {elem : Process W → ℕ → TValue} {Good : Process W → Prop}
    {Fails : Fault → Process W → Prop} {ordered : Prop} {lt : TValue → TValue → Prop}
    {S : TValue → Prop} {m : Int64} {fuel : ℕ}
    (hs : Sortable host t cmp m.toInt.toNat elem Good Fails ordered lt S)
    (hm : 1 < m) (hfuel : m.toInt ≤ fuel) (hq : Good q) :
    Ends (auxsort host t cmp fuel 1 (UInt32.ofNat m.toInt.toNat) 0) q
      (fun _ q' => Sorted elem Good ordered lt 1 m.toInt.toNat (elem q) q') Fails := by
  have hsize := hs.size
  have hone : (1 : Int64).toInt = 1 := rfl
  have hfirst : (1 : UInt32).toNat = 1 := rfl
  have hwords : UInt32.size = 2 ^ 32 := rfl
  rw [Int64.lt_iff_toInt_lt] at hm
  have hlast : (UInt32.ofNat m.toInt.toNat).toNat = m.toInt.toNat :=
    UInt32.toNat_ofNat_of_lt' (by omega)
  have hsorted := @auxsort_spec _ _ _ _ _ _ _ _ _ _ _ hs fuel 1 (UInt32.ofNat m.toInt.toNat) 0 q hq
    (Nat.le_refl 1) (by omega) (by omega)
  rwa [hlast] at hsorted

def Element (a : Addr) (n : ℕ) (L : State) (x : TValue) : Prop :=
  ∃ i, (1 ≤ i ∧ i ≤ n) ∧ elementAt a L i = x

theorem Sorting.element (h : Sorting a n p q) {i : ℕ} (hi : 1 ≤ i ∧ i ≤ n) :
    Element a n p.L (elementAt a q.L i) :=
  h.rearranged.transfer (P := Element a n p.L) (fun k hk => ⟨k, hk, rfl⟩) i hi

theorem sortable_of_unmodifying {cmp : TValue} (hsmall : n < 2 ^ 31)
    (hcmp : Unmodifying host a n cmp (Element a n p.L)) :
    Sortable host (.table a) cmp n (fun q => elementAt a q.L) (Sorting a n p)
      (fun e q => Sorting a n p q ∧ Raised e) False (fun _ _ => False) (fun _ => False) where
  size := hsmall
  compare := by
    intro q i j hq hi hj
    have hcompare := sortCompIdx_sorting (Q := fun _ _ => True) (E := fun _ _ => True) hq hi hj
      fun q₁ hdirect _ => (hcmp _ _ q₁ (hq.element hi) (hq.element hj) hdirect).mono
        (fun _ _ h => ⟨h, trivial⟩) fun _ _ h => ⟨h, trivial⟩
    apply hcompare.mono
    · rintro b q' ⟨hq', helem, -⟩
      exact ⟨hq', helem, False.elim⟩
    · rintro e q' ⟨hq', hraised, -⟩
      exact ⟨hq', hraised⟩
  swap := sortSwap_direct
  random h := ⟨⟨h.direct, h.rearranged, h.kept, h.trace⟩, rfl⟩
  invalid _ hq := ⟨hq, _, rfl⟩
  member := False.elim
  weak := False.elim

/-! ## With a comparison that gives any answers -/

theorem sortLength_safe {m : Int64} {p₁ : Process W} {cmp : TValue} {fuel : ℕ}
    (hdirect : Direct a m.toInt.toNat p₁.L)
    (hcmp : Unmodifying host a m.toInt.toNat cmp (Element a m.toInt.toNat p₁.L))
    (hfuel : m.toInt ≤ fuel) :
    Ends (sortLength host (.table a) cmp fuel m) p₁
      (fun _ p' => Sorting a m.toInt.toNat p₁ p')
      (fun e p' => Raised e ∧ Sorting a m.toInt.toNat p₁ p') := by
  have hstart := Sorting.start hdirect
  unfold sortLength
  apply ends_ite
  · intro _
    exact ends_pure hstart
  intro hm
  apply ends_ite
  · intro _
    exact ⟨⟨_, rfl⟩, hstart⟩
  intro hbig
  apply ends_ite
  · intro _
    exact ⟨⟨_, rfl⟩, hstart⟩
  intro _
  have hsmall : m.toInt.toNat < 2 ^ 31 := by
    have hbound : (2147483647 : Int64).toInt = 2147483647 := rfl
    rw [Int64.le_iff_toInt_le] at hbig
    omega
  apply (auxsort_all (sortable_of_unmodifying hsmall hcmp) (not_not.mp hm) hfuel hstart).mono
  · intro _ q hsorted
    exact hsorted.good
  · intro e q h
    exact h.symm

/--
The sort ends, by itself or with an error, and the positions always have the
elements that they had; nothing else is read or written.
-/
theorem tabSort_safe {m : Int64} {p₁ : Process W} {args : List TValue} {fuel : ℕ}
    (hlen : auxGetn host (.table a) p = .ok m p₁) (hdirect : Direct a m.toInt.toNat p₁.L)
    (hcmp : Unmodifying host a m.toInt.toNat (args.getD 0 .nil)
      (Element a m.toInt.toNat p₁.L))
    (hfuel : m.toInt ≤ fuel) :
    ((∃ t, p.L.table? a = some t) → p.L.Lacks a .len →
      ∀ v key, p₁.L.rawGet v key = p.L.rawGet v key) ∧
    Ends (tabSort host fuel (.table a :: args)) p
      (fun r p' => r = [] ∧ Sorting a m.toInt.toNat p₁ p')
      (fun e p' => Raised e ∧ Sorting a m.toInt.toNat p₁ p') := by
  refine ⟨fun htable hlacks => auxGetn_same htable hlacks hlen, ?_⟩
  apply Ends.congr (tabSort_eq hlen)
  apply (sortLength_safe hdirect hcmp hfuel).bind
  intro _ q hq
  exact ends_pure ⟨rfl, hq⟩

/-- Three elements, and a comparison that says yes to everything. -/
theorem tabSort_safe_inconsistent :
    Ends (tabSort (answering (.boolean true)) 3 [.table 1, .function 9])
      (listProcess threeElements)
      (fun r p' => r = [] ∧ Sorting 1 3 (listProcess threeElements) p')
      (fun e p' => Raised e ∧ Sorting 1 3 (listProcess threeElements) p') :=
  (tabSort_safe (auxGetn_three _) (listProcess_direct (by decide))
    (answering_unmodifying _ 9 _) (by decide)).2

/-! ## With a strict weak order -/

/-- The comparison answers whether an element is less than another. -/
structure Answers (host : Host W) (a : Addr) (n : ℕ) (cmp : TValue) (S : TValue → Prop)
    (lt : TValue → TValue → Prop) : Prop where
  order : IsStrictWeakOrder {x // S x} fun x y => lt x y
  answer : ∀ (x y : TValue) (q : Process W), S x → S y → Direct a n q.L →
    Returns (sortCompare host cmp x y) q fun b q' => Same a n q q' ∧ (b = true ↔ lt x y)

theorem sortable_of_answers {cmp : TValue} {lt : TValue → TValue → Prop} (hsmall : n < 2 ^ 31)
    (hcmp : Answers host a n cmp (Element a n p.L) lt) :
    Sortable host (.table a) cmp n (fun q => elementAt a q.L) (Sorting a n p)
      (fun _ _ => False) True lt (Element a n p.L) where
  size := hsmall
  compare := by
    intro q i j hq hi hj
    apply (sortCompIdx_sorting hq hi hj (E := fun _ _ => False) ?_).mono (fun _ _ => id)
      fun _ _ h => h.2.2
    intro q₁ hdirect _
    apply (hcmp.answer _ _ q₁ (hq.element hi) (hq.element hj) hdirect).mono
    · intro b q' h
      exact ⟨h.1, fun _ => h.2⟩
    · intro _ _ h
      exact h.elim
  swap := sortSwap_direct
  random h := ⟨⟨h.direct, h.rearranged, h.kept, h.trace⟩, rfl⟩
  invalid h _ := h trivial
  member _ hq hi := hq.element hi
  weak _ := weak_of_strictWeakOrder hcmp.order

theorem strictWeakOrder_numbers {S : TValue → Prop} (hS : ∀ x, S x → x.toNumber ≠ .nan) :
    IsStrictWeakOrder {x // S x} fun x y => x.val.toNumber.lt y.val.toNumber = true := by
  have hvalue : ∀ x : {x // S x}, ∃ v, x.val.toNumber.value? = some v := fun x =>
    Binary64.Datum.value?_isSome (hS x.val x.property)
  choose value hvalue using hvalue
  have hlt : ∀ x y : {x // S x}, x.val.toNumber.lt y.val.toNumber = true ↔ value x < value y := by
    intro x y
    simp [Binary64.Datum.lt_iff, hvalue]
  simp only [hlt]
  exact
    { irrefl := fun x => lt_irrefl (value x)
      trans := fun x y z => lt_trans
      incomp_trans := fun x y z hxy hyz => by
        simp only [not_lt] at hxy hyz ⊢
        exact ⟨hyz.1.trans hxy.1, hxy.2.trans hyz.2⟩ }

theorem answers_numbers {S : TValue → Prop}
    (hS : ∀ x, S x → x.isNumber = true ∧ x.toNumber ≠ .nan) :
    Answers host a n .nil S fun x y => x.toNumber.lt y.toNumber = true where
  order := strictWeakOrder_numbers fun x hx => (hS x hx).2
  answer x y q hx hy hq := by
    have hnumbers : (x.isNumber && y.isNumber) = true := by simp [(hS x hx).1, (hS y hy).1]
    have hrun : sortCompare host .nil x y = pure (x.toNumber.lt y.toNumber) := by
      show metaLt host x y = _
      rw [metaLt, if_pos hnumbers]
    rw [hrun]
    exact ends_pure ⟨.refl hq, Iff.rfl⟩

theorem sortLength_sorts {m : Int64} {p₁ : Process W} {cmp : TValue} {fuel : ℕ}
    {lt : TValue → TValue → Prop} (hdirect : Direct a m.toInt.toNat p₁.L)
    (hsmall : m.toInt < 2147483647) (harg : cmp.isNil ∨ cmp.isFunction)
    (hcmp : Answers host a m.toInt.toNat cmp (Element a m.toInt.toNat p₁.L) lt)
    (hfuel : m.toInt ≤ fuel) :
    Returns (sortLength host (.table a) cmp fuel m) p₁ fun _ q =>
      Sorted (fun q => elementAt a q.L) (Sorting a m.toInt.toNat p₁) True lt 1 m.toInt.toNat
        (elementAt a p₁.L) q := by
  have hstart := Sorting.start hdirect
  unfold sortLength
  apply ends_ite
  · intro hm
    have hone : (1 : Int64).toInt = 1 := rfl
    rw [Int64.lt_iff_toInt_lt] at hm
    exact ends_pure ⟨hstart, .refl _ _ _, fun _ => .of_short (by omega)⟩
  intro hm
  have hbound : (2147483647 : Int64).toInt = 2147483647 := rfl
  rw [if_neg ?_, if_neg ?_]
  · exact auxsort_all (sortable_of_answers (by omega) hcmp) (not_not.mp hm) hfuel hstart
  · rintro ⟨hnil, hfunction⟩
    exact harg.elim hnil hfunction
  · rw [Int64.le_iff_toInt_le]
    omega

/--
With a strict weak order the sort returns, and no element is less than one
before it.
-/
theorem tabSort_sorts {m : Int64} {p₁ : Process W} {args : List TValue} {fuel : ℕ}
    {lt : TValue → TValue → Prop} (hlen : auxGetn host (.table a) p = .ok m p₁)
    (hdirect : Direct a m.toInt.toNat p₁.L) (hsmall : m.toInt < 2147483647)
    (harg : (args.getD 0 .nil).isNil ∨ (args.getD 0 .nil).isFunction)
    (hcmp : Answers host a m.toInt.toNat (args.getD 0 .nil)
      (Element a m.toInt.toNat p₁.L) lt) (hfuel : m.toInt ≤ fuel) :
    ((∃ t, p.L.table? a = some t) → p.L.Lacks a .len →
      ∀ v key, p₁.L.rawGet v key = p.L.rawGet v key) ∧
    Returns (tabSort host fuel (.table a :: args)) p fun r p' => r = [] ∧
      Rearranged 1 m.toInt.toNat (elementAt a p₁.L) (elementAt a p'.L) ∧
      (∀ i j, 1 ≤ i → i < j → j ≤ m.toInt.toNat →
        ¬ lt (elementAt a p'.L j) (elementAt a p'.L i)) ∧
      ∀ key, Canonical key →
        (∀ i, 1 ≤ i ∧ i ≤ m.toInt.toNat → key ≠ .integer (Int64.ofNat i)) →
        p'.L.rawGet (.table a) key = p₁.L.rawGet (.table a) key := by
  refine ⟨fun htable hlacks => auxGetn_same htable hlacks hlen, ?_⟩
  apply Ends.congr (tabSort_eq hlen)
  apply (sortLength_sorts hdirect hsmall harg hcmp hfuel).bind
  intro _ q hq
  exact ends_pure ⟨rfl, hq.rearranged, hq.ordered trivial, hq.good.kept⟩

theorem tabSort_sorts_three :
    Returns (tabSort (answering .nil) 3 [.table 1]) (listProcess threeElements) fun r p' =>
      r = [] ∧
      Rearranged 1 3 (elementAt 1 (listProcess threeElements).L) (elementAt 1 p'.L) ∧
      ∀ i j, 1 ≤ i → i < j → j ≤ 3 →
        ¬ (elementAt 1 p'.L j).toNumber.lt (elementAt 1 p'.L i).toNumber = true := by
  have hnumbers : ∀ x, Element 1 3 (listProcess threeElements).L x →
      x.isNumber = true ∧ x.toNumber ≠ .nan := by
    rintro x ⟨i, hi, rfl⟩
    rw [elementAt_listProcess (by decide) hi.1]
    obtain rfl | rfl | rfl : i = 1 ∨ i = 2 ∨ i = 3 := by omega
    · exact ⟨rfl, by simp [threeElements, TValue.toNumber, floatOfInt]⟩
    · exact ⟨rfl, by simp [threeElements, TValue.toNumber, floatOfInt]⟩
    · exact ⟨rfl, by simp [threeElements, TValue.toNumber, floatOfInt]⟩
  have hsorts := @tabSort_sorts Unit (answering .nil) 1 (listProcess threeElements) 3 _ [] 3 _
    (auxGetn_three _) (listProcess_direct (by decide)) (by decide) (Or.inl rfl)
    (answers_numbers hnumbers) (by decide)
  apply hsorts.2.imp
  rintro r p' ⟨hr, hmoved, hordered, -⟩
  exact ⟨hr, hmoved, hordered⟩

/-! ## A list that is too long -/

def longList : Process Unit := listProcess (List.replicate 2147483647 (.integer 0))

/-- With `INT_MAX` elements nothing is sorted, although the order is a strict weak one. -/
theorem sort_rejects_longList :
    (∀ i, 1 ≤ i ∧ i ≤ 2147483647 → elementAt 1 longList.L i = .integer 0) ∧
    Direct 1 2147483647 longList.L ∧
    Answers (answering .nil) 1 2147483647 .nil (Element 1 2147483647 longList.L)
      (fun x y => x.toNumber.lt y.toNumber = true) ∧
    ∀ fuel, tabSort (answering .nil) fuel [.table 1] longList =
      .error (.panic "array too big") longList := by
  have hcount : (List.replicate 2147483647 (TValue.integer 0)).length = 2147483647 :=
    List.length_replicate
  have helement : ∀ i, 1 ≤ i ∧ i ≤ 2147483647 → elementAt 1 longList.L i = .integer 0 := by
    intro i hi
    rw [longList, elementAt_listProcess (by omega) hi.1, List.getD_eq_getElem?_getD,
      List.getElem?_replicate, if_pos (by omega)]
    rfl
  refine ⟨helement, listProcess_direct (by omega), answers_numbers ?_, fun fuel => ?_⟩
  · rintro x ⟨i, hi, rfl⟩
    rw [helement i hi]
    exact ⟨rfl, by simp [TValue.toNumber, floatOfInt]⟩
  · have hlast : (List.replicate 2147483647 (TValue.integer 0)).getLast? ≠ some .nil := by
      rw [List.getLast?_replicate]
      simp
    have hlen : auxGetn (answering .nil) (.table 1) longList = .ok 2147483647 longList := by
      rw [longList, auxGetn_listProcess, tableLength_arrayOnly (by omega) hlast, hcount]
      rfl
    rw [tabSort_eq hlen]
    rfl

end Luatier.TableLib
