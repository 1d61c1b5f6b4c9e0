import Mathlib.Data.List.GetD
import Mathlib.Data.List.Nodup
import Mathlib.Logic.Function.Basic

/-!
# Lists linked through their cells

A pointer leads through cells, each of which holds the pointer to the next.
The loops that walk such a list, take cells out of it, or move them to other
lists are bounded by a number of rounds and answer `none` when it is used up.
-/

namespace LinkedList

universe u v

variable {α : Type u}

def Leads (next : α → Option α) : Option α → List α → Prop
  | p, [] => p = none
  | p, a :: l => p = some a ∧ Leads next (next a) l

def find (next : α → Option α) (test : α → Bool) : Nat → Option α → Option (Option α)
  | 0, _ => none
  | _ + 1, none => some none
  | n + 1, some a => if test a then some (some a) else find next test n (next a)

/-- Where a pointer is kept. -/
inductive Place (α : Type u) where
  | head
  | next (a : α)

structure Memory (α : Type u) where
  head : Option α
  next : α → Option α

namespace Memory

variable [DecidableEq α]

def read (m : Memory α) : Place α → Option α
  | .head => m.head
  | .next a => m.next a

def write (m : Memory α) (q : Option α) : Place α → Memory α
  | .head => { m with head := q }
  | .next a => { m with next := Function.update m.next a q }

end Memory

variable [DecidableEq α]

def unlink (test : α → Bool) : Nat → Place α → Memory α → Option (Option α × Memory α)
  | 0, _, _ => none
  | n + 1, p, m =>
      match m.read p with
      | none => some (none, m)
      | some a =>
          if test a then some (some a, m.write (m.next a) p)
          else unlink test n (.next a) m

/-- Take all cells that pass a test out of the list, and treat each at once. -/
def unlinkAll {σ : Type v} (test : σ → α → Bool) (treat : σ → α → σ) :
    Nat → Place α → Memory α → σ → Option (Memory α × σ)
  | 0, _, _, _ => none
  | n + 1, p, m, s =>
      match m.read p with
      | none => some (m, s)
      | some a =>
          if test s a then unlinkAll test treat n p (m.write (m.next a) p) (treat s a)
          else unlinkAll test treat n (.next a) m s

def scatter (slot : α → Nat) : Nat → Option α → List (Option α) → (α → Option α) →
    Option (List (Option α) × (α → Option α))
  | 0, _, _, _ => none
  | _ + 1, none, heads, next => some (heads, next)
  | n + 1, some a, heads, next =>
      scatter slot n (next a) (heads.set (slot a) (some a))
        (Function.update next a (heads.getD (slot a) none))

def scatterAll (slot : α → Nat) (n : Nat) : List (Option α) → List (Option α) → (α → Option α) →
    Option (List (Option α) × (α → Option α))
  | [], heads, next => some (heads, next)
  | p :: ps, heads, next =>
      (scatter slot n p heads next).bind fun r => scatterAll slot n ps r.1 r.2

variable {next next' : α → Option α} {p : Option α} {l : List α} {n : Nat}

omit [DecidableEq α] in
theorem Leads.congr (h : Leads next p l) (hsame : ∀ a ∈ l, next' a = next a) :
    Leads next' p l := by
  induction l generalizing p with
  | nil => exact h
  | cons a l ih =>
      obtain ⟨hp, hrest⟩ := h
      refine ⟨hp, ?_⟩
      rw [hsame a List.mem_cons_self]
      exact ih hrest fun b hb => hsame b (List.mem_cons_of_mem a hb)

theorem Leads.update (h : Leads next p l) {a : α} (ha : a ∉ l) (q : Option α) :
    Leads (Function.update next a q) p l :=
  h.congr fun _ hb => Function.update_of_ne (ne_of_mem_of_not_mem hb ha) _ _

theorem Leads.pushFront (h : Leads next p l) {a : α} (ha : a ∉ l) :
    Leads (Function.update next a p) (some a) (a :: l) := by
  refine ⟨rfl, ?_⟩
  rw [Function.update_self]
  exact h.update ha p

omit [DecidableEq α] in
theorem find_eq (test : α → Bool) (h : Leads next p l) (hn : l.length < n) :
    find next test n p = some (l.find? test) := by
  induction l generalizing p n with
  | nil =>
      obtain ⟨m, rfl⟩ : ∃ m, n = m + 1 := ⟨n - 1, by omega⟩
      rw [show p = none from h]
      rfl
  | cons a l ih =>
      obtain ⟨rfl, hrest⟩ := h
      obtain ⟨m, rfl⟩ : ∃ m, n = m + 1 := ⟨n - 1, by omega⟩
      rw [find, List.find?_cons]
      cases test a with
      | true => rfl
      | false => exact ih hrest (Nat.lt_of_succ_lt_succ hn)

/-! ## Unlinking -/

def Place.Outside (q : Place α) (l : List α) : Prop := ∀ a, q = .next a → a ∉ l

structure Frame (q : Place α) (l : List α) (m m' : Memory α) : Prop where
  head : q ≠ .head → m'.head = m.head
  next : ∀ a, a ∉ l → q ≠ .next a → m'.next a = m.next a

variable {m m' : Memory α} {q : Place α} {a : α}

theorem Memory.read_write (r : Option α) : (m.write r q).read q = r := by
  cases q with
  | head => rfl
  | next b => exact Function.update_self b r m.next

theorem Memory.next_write (r : Option α) (h : q ≠ .next a) :
    (m.write r q).next a = m.next a := by
  cases q with
  | head => rfl
  | next b => exact Function.update_of_ne (fun hab => h (congrArg Place.next hab.symm)) _ _

theorem Memory.head_write (r : Option α) (h : q ≠ .head) : (m.write r q).head = m.head := by
  cases q with
  | head => exact absurd rfl h
  | next b => rfl

omit [DecidableEq α] in
theorem Frame.read (h : Frame (.next a) l m m') (hq : q ≠ .next a) (hout : q.Outside l) :
    m'.read q = m.read q := by
  cases q with
  | head => exact h.head (fun hh => nomatch hh)
  | next b => exact h.next b (hout b rfl) fun hab => hq hab.symm

omit [DecidableEq α] in
theorem Frame.advance (h : Frame (.next a) l m m') : Frame q (a :: l) m m' := by
  refine ⟨fun _ => h.head (fun hh => nomatch hh), fun b hb _ => ?_⟩
  obtain ⟨hba, hbl⟩ := not_or.mp (mt List.mem_cons.mpr hb)
  exact h.next b hbl fun hab => hba (Place.next.inj hab).symm

theorem Leads.write (h : Leads m.next (m.next a) l) (hout : q.Outside l) :
    Leads (m.write (m.next a) q).next ((m.write (m.next a) q).read q) l := by
  rw [Memory.read_write]
  exact h.congr fun b hb => Memory.next_write _ fun hq => hout b hq hb

theorem unlink_spec (test : α → Bool) (h : Leads m.next (m.read q) l) (hl : l.Nodup)
    (hout : q.Outside l) (hn : l.length < n) :
    ∃ m', unlink test n q m = some (l.find? test, m') ∧ Frame q l m m' ∧
      Leads m'.next (m'.read q) (l.eraseP test) := by
  induction l generalizing n q with
  | nil =>
      obtain ⟨k, rfl⟩ : ∃ k, n = k + 1 := ⟨n - 1, by omega⟩
      refine ⟨m, ?_, ⟨fun _ => rfl, fun _ _ _ => rfl⟩, h⟩
      rw [unlink, show m.read q = none from h]
      rfl
  | cons a l ih =>
      obtain ⟨k, rfl⟩ : ∃ k, n = k + 1 := ⟨n - 1, by omega⟩
      obtain ⟨hq, hrest⟩ := h
      obtain ⟨hal, hl⟩ := List.nodup_cons.mp hl
      have hout' : q.Outside l := fun b hb hmem => hout b hb (List.mem_cons_of_mem a hmem)
      have hqa : q ≠ .next a := fun hqa => hout a hqa List.mem_cons_self
      rw [unlink, hq, List.find?_cons, List.eraseP_cons]
      cases htest : test a with
      | true =>
          refine ⟨m.write (m.next a) q, by simp [htest], ⟨Memory.head_write _,
            fun b _ hb => Memory.next_write _ hb⟩, hrest.write hout'⟩
      | false =>
          obtain ⟨m', hm', hframe, hleads⟩ := ih (q := .next a) hrest hl
            (fun b hb => by cases hb; exact hal) (Nat.lt_of_succ_lt_succ hn)
          refine ⟨m', by simpa [htest] using hm', hframe.advance, ?_, hleads⟩
          rw [hframe.read hqa hout', hq]

/-- What is done to a cell does not change the test of another. -/
def Local {σ : Type v} (test : σ → α → Bool) (treat : σ → α → σ) : Prop :=
  ∀ s a b, a ≠ b → test (treat s a) b = test s b

theorem unlinkAll_spec {σ : Type v} {test : σ → α → Bool} {treat : σ → α → σ}
    (hlocal : Local test treat) (s : σ) (h : Leads m.next (m.read q) l) (hl : l.Nodup)
    (hout : q.Outside l) (hn : l.length < n) :
    ∃ m', unlinkAll test treat n q m s = some (m', (l.filter (test s)).foldl treat s) ∧
      Frame q l m m' ∧ Leads m'.next (m'.read q) (l.filter fun a => !test s a) := by
  induction l generalizing n q m s with
  | nil =>
      obtain ⟨k, rfl⟩ : ∃ k, n = k + 1 := ⟨n - 1, by omega⟩
      refine ⟨m, ?_, ⟨fun _ => rfl, fun _ _ _ => rfl⟩, h⟩
      rw [unlinkAll, show m.read q = none from h]
      rfl
  | cons a l ih =>
      obtain ⟨k, rfl⟩ : ∃ k, n = k + 1 := ⟨n - 1, by omega⟩
      obtain ⟨hq, hrest⟩ := h
      obtain ⟨hal, hl⟩ := List.nodup_cons.mp hl
      have hk := Nat.lt_of_succ_lt_succ hn
      have hout' : q.Outside l := fun b hb hmem => hout b hb (List.mem_cons_of_mem a hmem)
      have hqa : q ≠ .next a := fun hqa => hout a hqa List.mem_cons_self
      rw [unlinkAll, hq]
      cases htest : test s a with
      | true =>
          have hsame : ∀ b ∈ l, test (treat s a) b = test s b := fun b hb =>
            hlocal s a b fun hab => hal (hab ▸ hb)
          obtain ⟨m', hm', hframe, hleads⟩ := ih (treat s a) (hrest.write hout') hl hout' hk
          rw [List.filter_congr hsame] at hm'
          rw [List.filter_congr fun b hb => congrArg not (hsame b hb)] at hleads
          refine ⟨m', ?_, ?_, ?_⟩
          · simpa [htest, List.filter_cons] using hm'
          · refine ⟨fun hhead => ?_, fun b hb hqb => ?_⟩
            · rw [hframe.head hhead, Memory.head_write _ hhead]
            · rw [hframe.next b (fun hmem => hb (List.mem_cons_of_mem a hmem)) hqb,
                Memory.next_write _ hqb]
          · simpa [htest, List.filter_cons] using hleads
      | false =>
          obtain ⟨m', hm', hframe, hleads⟩ := ih (q := .next a) s hrest hl
            (fun b hb => by cases hb; exact hal) hk
          refine ⟨m', by simpa [htest, List.filter_cons] using hm', hframe.advance, ?_⟩
          rw [List.filter_cons, htest]
          exact ⟨by rw [hframe.read hqa hout', hq], hleads⟩

theorem foldl_update {β : Type v} (f : β → β) (hl : l.Nodup) (s : α → β) (b : α) :
    l.foldl (fun s a => Function.update s a (f (s a))) s b = if b ∈ l then f (s b) else s b := by
  induction l generalizing s with
  | nil => rw [List.foldl_nil, if_neg List.not_mem_nil]
  | cons a l ih =>
      obtain ⟨hal, hl⟩ := List.nodup_cons.mp hl
      rw [List.foldl_cons, ih hl, Function.update_apply]
      by_cases hba : b = a
      · subst hba
        rw [if_neg hal, if_pos rfl, if_pos List.mem_cons_self]
      · rw [if_neg hba]
        exact if_congr (by simp [hba]) rfl rfl

/-! ## Buckets -/

def Buckets (next : α → Option α) (heads : List (Option α)) (chain : Nat → List α) : Prop :=
  ∀ i < heads.length, Leads next (heads.getD i none) (chain i)

variable {heads : List (Option α)} {chain : Nat → List α}

theorem Buckets.pushFront (h : Buckets next heads chain) {slot : Nat}
    (ha : ∀ i < heads.length, a ∉ chain i) :
    Buckets (Function.update next a (heads.getD slot none)) (heads.set slot (some a))
      fun i => if slot = i then a :: chain i else chain i := by
  intro i hi
  rw [List.length_set] at hi
  by_cases hslot : slot = i
  · subst hslot
    simp only [if_true, List.getD_eq_getElem?_getD, List.getElem?_set_self hi, Option.getD_some]
    rw [← List.getD_eq_getElem?_getD]
    exact (h slot hi).pushFront (ha slot hi)
  · simp only [if_neg hslot, List.getD_eq_getElem?_getD, List.getElem?_set_ne hslot]
    rw [← List.getD_eq_getElem?_getD]
    exact (h i hi).update (ha i hi) _

theorem scatter_spec (slot : α → Nat) (h : Leads next p l) (hl : l.Nodup)
    (hb : Buckets next heads chain) (hapart : ∀ a ∈ l, ∀ i < heads.length, a ∉ chain i)
    (hn : l.length < n) :
    ∃ heads' next', scatter slot n p heads next = some (heads', next') ∧
      heads'.length = heads.length ∧
      Buckets next' heads' (fun i => (l.filter fun a => slot a = i).reverse ++ chain i) ∧
      ∀ a, a ∉ l → next' a = next a := by
  induction l generalizing n p heads next chain with
  | nil =>
      obtain ⟨k, rfl⟩ : ∃ k, n = k + 1 := ⟨n - 1, by omega⟩
      rw [show p = none from h]
      exact ⟨heads, next, rfl, rfl, hb, fun _ _ => rfl⟩
  | cons a l ih =>
      obtain ⟨k, rfl⟩ : ∃ k, n = k + 1 := ⟨n - 1, by omega⟩
      obtain ⟨rfl, hrest⟩ := h
      obtain ⟨hal, hl⟩ := List.nodup_cons.mp hl
      have hpushed := @Buckets.pushFront _ _ next a heads chain hb (slot a)
        (hapart a List.mem_cons_self)
      have hapart' : ∀ b ∈ l, ∀ i < (heads.set (slot a) (some a)).length,
          b ∉ if slot a = i then a :: chain i else chain i := by
        intro b hbl i hi
        rw [List.length_set] at hi
        have hold := hapart b (List.mem_cons_of_mem a hbl) i hi
        by_cases hslot : slot a = i
        · rw [if_pos hslot, List.mem_cons]
          rintro (rfl | hmem)
          · exact hal hbl
          · exact hold hmem
        · rw [if_neg hslot]
          exact hold
      obtain ⟨heads', next', hok, hlen, hb', hframe⟩ := ih (hrest.update hal _) hl hpushed
        hapart' (Nat.lt_of_succ_lt_succ hn)
      rw [List.length_set] at hlen
      refine ⟨heads', next', hok, hlen, fun i hi => ?_, fun b hbl => ?_⟩
      · have hi' := hb' i hi
        by_cases hslot : slot a = i
        · simpa [hslot, List.filter_cons] using hi'
        · simpa [hslot, List.filter_cons] using hi'
      · rw [hframe b fun hmem => hbl (List.mem_cons_of_mem a hmem)]
        exact Function.update_of_ne (ne_of_mem_of_not_mem List.mem_cons_self hbl).symm _ _

omit [DecidableEq α] in
theorem Buckets.forall₂ (h : Buckets next heads chain) :
    List.Forall₂ (Leads next) heads ((List.range heads.length).map chain) := by
  refine List.forall₂_iff_get.mpr ⟨by simp, fun i hi hi' => ?_⟩
  have hlead := h i hi
  rw [List.getD_eq_getElem _ _ hi] at hlead
  simpa using hlead

omit [DecidableEq α] in
theorem leads_all_congr {ps : List (Option α)} {ls : List (List α)}
    (h : List.Forall₂ (Leads next) ps ls) (hsame : ∀ a ∈ ls.flatten, next' a = next a) :
    List.Forall₂ (Leads next') ps ls := by
  induction h with
  | nil => exact .nil
  | @cons p l ps ls hlead _ ih =>
      rw [List.flatten_cons] at hsame
      exact .cons (hlead.congr fun a ha => hsame a (List.mem_append_left _ ha))
        (ih fun a ha => hsame a (List.mem_append_right _ ha))

theorem scatterAll_spec (slot : α → Nat) {ps : List (Option α)} {ls : List (List α)}
    (h : List.Forall₂ (Leads next) ps ls) (hl : ls.flatten.Nodup)
    (hb : Buckets next heads chain) (hnodup : ∀ i < heads.length, (chain i).Nodup)
    (hapart : ∀ a ∈ ls.flatten, ∀ i < heads.length, a ∉ chain i)
    (hn : ∀ l ∈ ls, l.length < n) :
    ∃ heads' next' chain', scatterAll slot n ps heads next = some (heads', next') ∧
      heads'.length = heads.length ∧ Buckets next' heads' chain' ∧
      ∀ i < heads.length, (chain' i).Nodup ∧
        ∀ a, a ∈ chain' i ↔ a ∈ chain i ∨ a ∈ ls.flatten ∧ slot a = i := by
  induction ls generalizing ps heads next chain with
  | nil =>
      obtain rfl := List.forall₂_nil_right_iff.mp h
      exact ⟨heads, next, chain, rfl, rfl, hb, fun i hi => ⟨hnodup i hi, fun a => by simp⟩⟩
  | cons l ls ih =>
      obtain ⟨p, ps, hlead, hrest, rfl⟩ := List.forall₂_cons_right_iff.mp h
      rw [List.flatten_cons] at hl hapart
      obtain ⟨hnl, hnls, hdisj⟩ := List.nodup_append'.mp hl
      obtain ⟨heads₁, next₁, hok₁, hlen₁, hb₁, hframe₁⟩ := scatter_spec slot hlead hnl hb
        (fun a ha => hapart a (List.mem_append_left _ ha)) (hn l List.mem_cons_self)
      have hout : ∀ a ∈ ls.flatten, a ∉ l := fun a ha hmem => hdisj hmem ha
      have hrest₁ := leads_all_congr hrest fun a ha => hframe₁ a (hout a ha)
      have hmem₁ : ∀ i a, a ∈ (l.filter fun a => slot a = i).reverse ++ chain i ↔
          (a ∈ l ∧ slot a = i) ∨ a ∈ chain i := by
        intro i a
        rw [List.mem_append, List.mem_reverse, List.mem_filter, decide_eq_true_iff]
      have hnodup₁ : ∀ i < heads₁.length,
          ((l.filter fun a => slot a = i).reverse ++ chain i).Nodup := by
        rw [hlen₁]
        refine fun i hi => List.nodup_append'.mpr ⟨?_, hnodup i hi, fun a ha ha' => ?_⟩
        · exact List.nodup_reverse.mpr (hnl.filter _)
        · rw [List.mem_reverse] at ha
          exact hapart a (List.mem_append_left _ (List.mem_of_mem_filter ha)) i hi ha'
      have hapart₁ : ∀ a ∈ ls.flatten, ∀ i < heads₁.length,
          a ∉ (l.filter fun a => slot a = i).reverse ++ chain i := by
        rw [hlen₁]
        intro a ha i hi
        rw [hmem₁]
        rintro (⟨hmem, -⟩ | hmem)
        · exact hout a ha hmem
        · exact hapart a (List.mem_append_right _ ha) i hi hmem
      obtain ⟨heads₂, next₂, chain₂, hok₂, hlen₂, hb₂, hall₂⟩ := ih hrest₁ hnls hb₁ hnodup₁
        hapart₁ (fun l' hl' => hn l' (List.mem_cons_of_mem l hl'))
      rw [hlen₁] at hlen₂ hall₂
      refine ⟨heads₂, next₂, chain₂, ?_, hlen₂, hb₂, fun i hi => ⟨(hall₂ i hi).1, fun a => ?_⟩⟩
      · rw [scatterAll, hok₁]
        exact hok₂
      · rw [(hall₂ i hi).2, hmem₁, List.flatten_cons, List.mem_append]
        tauto

end LinkedList
