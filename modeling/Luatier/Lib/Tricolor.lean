import Mathlib.Data.List.Count
import Mathlib.Data.List.Nodup
import Mathlib.Logic.Function.Basic
import Mathlib.Logic.Relation

/-!
# Tri-colour marking

A collector colours the nodes of a graph and keeps the gray ones on a worklist.
Scanning the worklist to its end marks exactly what the marked nodes reach.
Edges with two sources, such as those of an ephemeron table, are handled by
rounds that alternate with scans until nothing changes.
-/

namespace Tricolor

variable {α : Type*}

/-! ## Derivations with joint edges -/

/-- Reachability where a joint edge needs both of its sources. -/
inductive Derives (edge : α → α → Prop) (joint : α → α → α → Prop)
    (base : α → Prop) : α → Prop
  | base {a} : base a → Derives edge joint base a
  | edge {a b} : Derives edge joint base a → edge a b →
      Derives edge joint base b
  | joint {t k v} : Derives edge joint base t → Derives edge joint base k →
      joint t k v → Derives edge joint base v

namespace Derives

variable {edge edge' : α → α → Prop} {joint joint' : α → α → α → Prop}
variable {base base' : α → Prop} {a : α}

theorem iff_source : Derives edge joint base a ↔ base a ∨
    (∃ b, Derives edge joint base b ∧ edge b a) ∨
      ∃ t k, Derives edge joint base t ∧ Derives edge joint base k ∧ joint t k a := by
  constructor
  · intro h
    cases h with
    | base hbase => exact Or.inl hbase
    | edge hb hedge => exact Or.inr (Or.inl ⟨_, hb, hedge⟩)
    | joint ht hk hjoint => exact Or.inr (Or.inr ⟨_, _, ht, hk, hjoint⟩)
  · rintro (hbase | ⟨b, hb, hedge⟩ | ⟨t, k, ht, hk, hjoint⟩)
    · exact .base hbase
    · exact .edge hb hedge
    · exact .joint ht hk hjoint

theorem least {kept : α → Prop} (hbase : ∀ a, base a → kept a)
    (hedge : ∀ {a b}, kept a → edge a b → kept b)
    (hjoint : ∀ {t k v}, kept t → kept k → joint t k v → kept v)
    (h : Derives edge joint base a) : kept a := by
  induction h with
  | base h => exact hbase _ h
  | edge _ hab ih => exact hedge ih hab
  | joint _ _ htkv iht ihk => exact hjoint iht ihk htkv

theorem mono (hbase : ∀ a, base a → Derives edge' joint' base' a)
    (hedge : ∀ {a b}, edge a b → edge' a b)
    (hjoint : ∀ {t k v}, joint t k v → joint' t k v)
    (h : Derives edge joint base a) : Derives edge' joint' base' a :=
  h.least hbase (fun ha hab => .edge ha (hedge hab))
    (fun ht hk htkv => .joint ht hk (hjoint htkv))

theorem of_path {b : α} (h : Derives edge joint base a)
    (hpath : Relation.ReflTransGen edge a b) : Derives edge joint base b := by
  induction hpath with
  | refl => exact h
  | tail _ hbc ih => exact .edge ih hbc

end Derives

/-! ## Colours and the worklist -/

/-- There are two whites, so that a sweep can tell last cycle's from this one's. -/
inductive Color where
  | white (side : Bool)
  | gray
  | black
  deriving DecidableEq, Repr

/-- The colour of every node, and the gray nodes in the order they will be scanned. -/
structure Marks (α : Type*) where
  color : α → Color
  gray : List α

namespace Marks

variable {m : Marks α} {a b : α}

def Marked (m : Marks α) (a : α) : Prop :=
  m.color a = .gray ∨ m.color a = .black

instance (m : Marks α) (a : α) : Decidable (m.Marked a) :=
  inferInstanceAs (Decidable (_ ∨ _))

structure Consistent (m : Marks α) : Prop where
  mem_gray : ∀ a, a ∈ m.gray ↔ m.color a = .gray
  nodup : m.gray.Nodup

def BlackClosed (refs : α → List α) (m : Marks α) : Prop :=
  ∀ a, m.color a = .black → ∀ b ∈ refs a, m.Marked b

variable [DecidableEq α]

def shade (m : Marks α) (a : α) : Marks α :=
  if m.Marked a then m
  else ⟨Function.update m.color a .gray, a :: m.gray⟩

def shadeAll (m : Marks α) (l : List α) : Marks α := l.foldl shade m

def scan (refs : α → List α) (m : Marks α) : Marks α :=
  match m.gray with
  | [] => m
  | a :: rest =>
      shadeAll ⟨Function.update m.color a .black, rest⟩ (refs a)

def scanAll (refs : α → List α) : Nat → Marks α → Marks α
  | 0, m => m
  | fuel + 1, m => if m.gray = [] then m else scanAll refs fuel (scan refs m)

/-! ### Shading -/

theorem shade_of_marked (h : m.Marked a) : m.shade a = m := if_pos h

theorem color_shade (m : Marks α) (a b : α) :
    (m.shade a).color b =
      if b = a ∧ ¬ m.Marked a then .gray else m.color b := by
  unfold shade
  by_cases ha : m.Marked a
  · simp [ha]
  · simp only [ha, if_false, Function.update_apply]
    by_cases hb : b = a <;> simp [hb]

theorem marked_shade : (m.shade a).Marked b ↔ m.Marked b ∨ b = a := by
  by_cases ha : m.Marked a
  · rw [shade_of_marked ha]
    constructor
    · exact Or.inl
    · rintro (h | rfl)
      · exact h
      · exact ha
  · by_cases hb : b = a
    · subst hb
      simp [Marked, color_shade, show ¬ (m.color b = .gray ∨ _) from ha]
    · simp [Marked, color_shade, hb]

theorem black_shade : (m.shade a).color b = .black ↔ m.color b = .black := by
  rw [color_shade]
  split
  · rename_i h
    obtain ⟨rfl, hb⟩ := h
    simp only [reduceCtorEq, false_iff]
    exact fun hblack => hb (Or.inr hblack)
  · rfl

theorem Consistent.shade (h : m.Consistent) (a : α) : (m.shade a).Consistent := by
  by_cases ha : m.Marked a
  · rw [shade_of_marked ha]
    exact h
  have hgray : (m.shade a).gray = a :: m.gray := by
    simp only [Marks.shade, ha, if_false]
  constructor
  · intro b
    rw [hgray, List.mem_cons, h.mem_gray, color_shade]
    by_cases hb : b = a <;> simp [hb, ha]
  · rw [hgray, List.nodup_cons, h.mem_gray]
    exact ⟨fun hg => ha (Or.inl hg), h.nodup⟩

theorem shadeAll_cons (m : Marks α) (a : α) (l : List α) :
    m.shadeAll (a :: l) = (m.shade a).shadeAll l := rfl

theorem marked_shadeAll {l : List α} :
    (m.shadeAll l).Marked b ↔ m.Marked b ∨ b ∈ l := by
  induction l generalizing m with
  | nil => simp [shadeAll]
  | cons a l ih =>
      rw [shadeAll_cons, ih, marked_shade, List.mem_cons, or_assoc]

theorem black_shadeAll {l : List α} :
    (m.shadeAll l).color b = .black ↔ m.color b = .black := by
  induction l generalizing m with
  | nil => rfl
  | cons a l ih => rw [shadeAll_cons, ih, black_shade]

theorem Consistent.shadeAll (h : m.Consistent) (l : List α) :
    (m.shadeAll l).Consistent := by
  induction l generalizing m with
  | nil => exact h
  | cons a l ih => exact ih (h.shade a)

theorem color_shadeAll_of_unmarked {l : List α}
    (h : ¬ (m.shadeAll l).Marked b) : (m.shadeAll l).color b = m.color b := by
  induction l generalizing m with
  | nil => rfl
  | cons a l ih =>
      rw [shadeAll_cons] at h ⊢
      rw [ih h, color_shade, if_neg]
      rintro ⟨rfl, -⟩
      exact h (marked_shadeAll.mpr (Or.inl (marked_shade.mpr (Or.inr rfl))))

theorem BlackClosed.shade {refs : α → List α} (h : m.BlackClosed refs) (a : α) :
    (m.shade a).BlackClosed refs := by
  intro b hb c hc
  exact marked_shade.mpr (Or.inl (h b (black_shade.mp hb) c hc))

theorem BlackClosed.shadeAll {refs : α → List α} (h : m.BlackClosed refs)
    (l : List α) : (m.shadeAll l).BlackClosed refs := by
  intro b hb c hc
  exact marked_shadeAll.mpr (Or.inl (h b (black_shadeAll.mp hb) c hc))

/-! ### Scanning -/

section Scan

variable {refs : α → List α}

theorem Consistent.scan (h : m.Consistent) : (m.scan refs).Consistent := by
  unfold Marks.scan
  cases hg : m.gray with
  | nil => exact h
  | cons a rest =>
      have hnodup := h.nodup
      rw [hg, List.nodup_cons] at hnodup
      refine Consistent.shadeAll ⟨fun b => ?_, hnodup.2⟩ _
      have hmem := h.mem_gray b
      rw [hg, List.mem_cons] at hmem
      simp only [Function.update_apply]
      by_cases hb : b = a
      · subst hb
        simp [hnodup.1]
      · simpa [hb] using hmem

theorem Consistent.scanAll (h : m.Consistent) (fuel : Nat) :
    (m.scanAll refs fuel).Consistent := by
  induction fuel generalizing m with
  | zero => exact h
  | succ fuel ih =>
      rw [Marks.scanAll]
      split
      · exact h
      · exact ih h.scan

theorem marked_scan (h : m.Consistent) : (m.scan refs).Marked b ↔
    m.Marked b ∨ ∃ a, m.gray.head? = some a ∧ b ∈ refs a := by
  unfold Marks.scan
  cases hg : m.gray with
  | nil => simp
  | cons a rest =>
      have ha : m.color a = .gray := (h.mem_gray a).mp (by simp [hg])
      simp only [marked_shadeAll, List.head?_cons, Option.some.injEq,
        exists_eq_left']
      have : Marked ⟨Function.update m.color a .black, rest⟩ b ↔
          m.Marked b := by
        simp only [Marked, Function.update_apply]
        by_cases hb : b = a
        · subst hb
          simp [ha]
        · simp [hb]
      rw [this]

theorem black_scan : (m.scan refs).color b = .black ↔
    m.color b = .black ∨ m.gray.head? = some b := by
  unfold Marks.scan
  cases hg : m.gray with
  | nil => simp
  | cons a rest =>
      rw [black_shadeAll]
      simp only [Function.update_apply]
      by_cases hb : b = a
      · simp [hb]
      · simp [hb, Ne.symm hb]

theorem BlackClosed.scan_of_subset {refs' : α → List α}
    (h : m.BlackClosed refs') (hm : m.Consistent)
    (hsub : ∀ a, refs' a ⊆ refs a) : (m.scan refs).BlackClosed refs' := by
  intro b hb c hc
  rw [marked_scan hm]
  rcases black_scan.mp hb with hblack | hhead
  · exact Or.inl (h b hblack c hc)
  · exact Or.inr ⟨b, hhead, hsub b hc⟩

theorem BlackClosed.scan (h : m.BlackClosed refs) (hm : m.Consistent) :
    (m.scan refs).BlackClosed refs :=
  h.scan_of_subset hm fun _ => List.Subset.refl _

theorem color_scan_of_unmarked
    (h : ¬ (m.scan refs).Marked b) : (m.scan refs).color b = m.color b := by
  unfold Marks.scan at h ⊢
  cases hg : m.gray with
  | nil => rfl
  | cons a rest =>
      simp only [hg] at h ⊢
      rw [color_shadeAll_of_unmarked h]
      refine Function.update_of_ne ?_ _ _
      rintro rfl
      exact h (marked_shadeAll.mpr (Or.inl (by simp [Marked])))

def pending (m : Marks α) (nodes : List α) : Nat :=
  nodes.countP fun a => decide (m.color a ≠ .black)

omit [DecidableEq α] in
theorem pending_lt {nodes : List α} {m' : Marks α}
    (hkeep : ∀ b, m.color b = .black → m'.color b = .black) (ha : a ∈ nodes)
    (hold : m.color a ≠ .black) (hnew : m'.color a = .black) :
    pending m' nodes < pending m nodes := by
  have hmono : ∀ l : List α, pending m' l ≤ pending m l := by
    intro l
    refine List.countP_mono_left fun b _ hb => ?_
    simp only [ne_eq, decide_eq_true_eq] at hb ⊢
    exact fun h => hb (hkeep b h)
  obtain ⟨l₁, l₂, rfl⟩ := List.append_of_mem ha
  have h₁ := hmono l₁
  have h₂ := hmono l₂
  simp only [pending, List.countP_append, List.countP_cons] at h₁ h₂ ⊢
  rw [if_neg (by simp [hnew]), if_pos (by simpa using hold)]
  omega

structure Scanned (refs : α → List α) (m m' : Marks α) : Prop where
  consistent : m'.Consistent
  blackClosed : m'.BlackClosed refs
  gray : m'.gray = []
  marked : ∀ b, m'.Marked b ↔
    ∃ a, m.Marked a ∧ Relation.ReflTransGen (fun x y => y ∈ refs x) a b
  color : ∀ b, ¬ m'.Marked b → m'.color b = m.color b

omit [DecidableEq α] in
/-- With an empty worklist every marked node is black, so nothing is left to do. -/
theorem Scanned.refl (hm : m.Consistent) (hblack : m.BlackClosed refs)
    (hgray : m.gray = []) : Scanned refs m m := by
  refine ⟨hm, hblack, hgray, fun b => ⟨fun hb => ⟨b, hb, .refl⟩, ?_⟩,
    fun _ _ => rfl⟩
  rintro ⟨a, ha, hpath⟩
  induction hpath with
  | refl => exact ha
  | tail _ hbc ih =>
      rcases ih with hg | hb
      · rw [← hm.mem_gray, hgray] at hg
        simp at hg
      · exact hblack _ hb _ hbc

theorem Scanned.of_scan (hm : m.Consistent) {m' : Marks α}
    (h : Scanned refs (m.scan refs) m') : Scanned refs m m' := by
  refine ⟨h.consistent, h.blackClosed, h.gray, fun b => ?_, fun b hb => ?_⟩
  · rw [h.marked]
    constructor
    · rintro ⟨a, ha, hpath⟩
      rcases (marked_scan hm).mp ha with ha | ⟨c, hc, hac⟩
      · exact ⟨a, ha, hpath⟩
      · have hgray : m.color c = .gray :=
          (hm.mem_gray c).mp (List.mem_of_mem_head? hc)
        exact ⟨c, Or.inl hgray, .head hac hpath⟩
    · rintro ⟨a, ha, hpath⟩
      exact ⟨a, (marked_scan hm).mpr (Or.inl ha), hpath⟩
  · have hb' : ¬ (m.scan refs).Marked b := fun h' =>
      hb ((h.marked b).mpr ⟨b, h', .refl⟩)
    rw [h.color b hb, color_scan_of_unmarked hb']

theorem scanAll_scanned (nodes : List α) {fuel : Nat} (hm : m.Consistent)
    (hblack : m.BlackClosed refs) (hnodes : ∀ a ∈ m.gray, a ∈ nodes)
    (hrefs : ∀ a, ∀ b ∈ refs a, b ∈ nodes) (hfuel : pending m nodes ≤ fuel) :
    Scanned refs m (m.scanAll refs fuel) := by
  induction fuel generalizing m with
  | zero =>
      refine .refl hm hblack ?_
      rw [List.eq_nil_iff_forall_not_mem]
      intro a ha
      have hgray := (hm.mem_gray a).mp ha
      have := List.countP_eq_zero.mp (Nat.le_zero.mp hfuel) a (hnodes a ha)
      simp [hgray] at this
  | succ fuel ih =>
      rw [scanAll]
      split
      · rename_i hgray
        exact .refl hm hblack hgray
      · rename_i hgray
        obtain ⟨a, rest, hg⟩ := List.exists_cons_of_ne_nil hgray
        have hlt : pending (m.scan refs) nodes < pending m nodes := by
          refine pending_lt (fun b hb => black_scan.mpr (Or.inl hb))
            (hnodes a (by simp [hg])) ?_
            (black_scan.mpr (Or.inr (by simp [hg])))
          rw [(hm.mem_gray a).mp (by simp [hg])]
          simp
        refine .of_scan hm (ih hm.scan (hblack.scan hm) ?_ (by omega))
        intro b hb
        have hb' := (hm.scan.mem_gray b).mp hb
        rcases (marked_scan hm).mp (Or.inl hb') with hmb | ⟨c, -, hc⟩
        · rcases hmb with hgb | hbb
          · exact hnodes b ((hm.mem_gray b).mpr hgb)
          · rw [black_scan.mpr (Or.inl hbb)] at hb'
            contradiction
        · exact hrefs c b hc

theorem black_scanAll {fuel : Nat} (h : m.color b = .black) :
    (m.scanAll refs fuel).color b = .black := by
  induction fuel generalizing m with
  | zero => exact h
  | succ fuel ih =>
      rw [scanAll]
      split
      · exact h
      · exact ih (black_scan.mpr (Or.inl h))

theorem scan_congr {refs' : α → List α} (hm : m.Consistent)
    (h : ∀ a, m.color a ≠ .black → refs a = refs' a) :
    m.scan refs = m.scan refs' := by
  unfold Marks.scan
  cases hg : m.gray with
  | nil => rfl
  | cons a rest =>
      have ha : m.color a = .gray := (hm.mem_gray a).mp (by simp [hg])
      have hrefs : refs a = refs' a := h a (by simp [ha])
      simp only [hrefs]

theorem scanAll_congr {refs' : α → List α} (hm : m.Consistent)
    (h : ∀ a, m.color a ≠ .black → refs a = refs' a) (fuel : Nat) :
    m.scanAll refs fuel = m.scanAll refs' fuel := by
  induction fuel generalizing m with
  | zero => rfl
  | succ fuel ih =>
      have hconsistent : (m.scan refs).Consistent := hm.scan
      have hscan := ih hconsistent fun a ha =>
        h a fun hb => ha (black_scan.mpr (Or.inl hb))
      rw [scanAll, scanAll, hscan, scan_congr hm h]

end Scan

/-! ### Joint edges -/

section Converge

/--
Shade the target of a joint edge when both of its sources are marked, and note
whether that moved the head of the worklist.
-/
def join (s : Marks α × Bool) (j : α × α × α) : Marks α × Bool :=
  if s.1.Marked j.1 ∧ s.1.Marked j.2.1 then
    let m' := s.1.shade j.2.2
    (m', s.2 || m'.gray.head? != s.1.gray.head?)
  else s

def joinRound (joints : List (α × α × α)) (m : Marks α) : Marks α × Bool :=
  joints.foldl join (m, false)

/-- Rounds over the joint edges, each followed by a scan, until one adds nothing. -/
def converge (refs : α → List α) (joints : List (α × α × α))
    (scanFuel : Nat) : Nat → Marks α → Marks α
  | 0, m => m
  | fuel + 1, m =>
      let r := joinRound joints m
      let m' := r.1.scanAll refs scanFuel
      if r.2 then converge refs joints scanFuel fuel m' else m'

variable {refs : α → List α} {joints : List (α × α × α)}

/-- The edges and joint edges that a collector follows, as relations. -/
abbrev Reached (refs : α → List α) (joints : List (α × α × α))
    (base : α → Prop) : α → Prop :=
  Derives (fun x y => y ∈ refs x) (fun t k v => (t, k, v) ∈ joints) base

theorem Consistent.foldl_join {s : Marks α × Bool} (h : s.1.Consistent)
    (joints : List (α × α × α)) : (joints.foldl join s).1.Consistent := by
  induction joints generalizing s with
  | nil => exact h
  | cons j joints ih =>
      refine ih ?_
      unfold join
      split
      · exact h.shade _
      · exact h

structure Joined (refs : α → List α) (joints : List (α × α × α))
    (m m' : Marks α) : Prop where
  consistent : m'.Consistent
  blackClosed : m'.BlackClosed refs
  black : ∀ b, m'.color b = .black ↔ m.color b = .black
  mono : ∀ b, m.Marked b → m'.Marked b
  sound : ∀ b, m'.Marked b → Reached refs joints m.Marked b
  target : ∀ b, m'.Marked b → m.Marked b ∨ ∃ j ∈ joints, j.2.2 = b
  color : ∀ b, ¬ m'.Marked b → m'.color b = m.color b
  complete : ∀ j ∈ joints, m.Marked j.1 → m.Marked j.2.1 → m'.Marked j.2.2

theorem shade_head?_ne (hm : m.Consistent) :
    (m.shade a).gray.head? ≠ m.gray.head? ↔ ¬ m.Marked a := by
  by_cases ha : m.Marked a
  · simp [shade_of_marked ha, ha]
  · have hgray : (m.shade a).gray = a :: m.gray := by
      simp only [shade, ha, if_false]
    simp only [hgray, List.head?_cons, ha, not_false_eq_true, iff_true]
    intro h
    exact ha (Or.inl ((hm.mem_gray a).mp (List.mem_of_mem_head? h.symm)))

omit [DecidableEq α] in
theorem Joined.refl (hm : m.Consistent) (hblack : m.BlackClosed refs)
    (hjoint : ∀ j ∈ joints, m.Marked j.1 → m.Marked j.2.1 → m.Marked j.2.2) :
    Joined refs joints m m :=
  ⟨hm, hblack, fun _ => Iff.rfl, fun _ h => h, fun _ h => .base h,
    fun _ h => Or.inl h, fun _ _ => rfl, hjoint⟩

omit [DecidableEq α] in
theorem Joined.trans {l₁ l₂ : List (α × α × α)} {m₁ m₂ : Marks α}
    (h₁ : Joined refs l₁ m m₁) (h₂ : Joined refs l₂ m₁ m₂) :
    Joined refs (l₁ ++ l₂) m m₂ := by
  refine ⟨h₂.consistent, h₂.blackClosed, fun b => (h₂.black b).trans (h₁.black b),
    fun b h => h₂.mono b (h₁.mono b h), fun b h => ?_, fun b h => ?_, fun b h => ?_,
    fun j hj ht hk => ?_⟩
  · refine (h₂.sound b h).least (fun c hc => ?_) .edge ?_
    · exact (h₁.sound c hc).mono (fun _ => .base) id
        (fun hj => List.mem_append_left _ hj)
    · exact fun ht hk hj => .joint ht hk (List.mem_append_right _ hj)
  · rcases h₂.target b h with h | ⟨j, hj, rfl⟩
    · rcases h₁.target b h with h | ⟨j, hj, rfl⟩
      · exact Or.inl h
      · exact Or.inr ⟨j, List.mem_append_left _ hj, rfl⟩
    · exact Or.inr ⟨j, List.mem_append_right _ hj, rfl⟩
  · rw [h₂.color b h, h₁.color b fun h' => h (h₂.mono b h')]
  · rcases List.mem_append.mp hj with hj | hj
    · exact h₂.mono _ (h₁.complete j hj ht hk)
    · exact h₂.complete j hj (h₁.mono _ ht) (h₁.mono _ hk)

theorem join_joined (hm : m.Consistent) (hblack : m.BlackClosed refs)
    (changed : Bool) (j : α × α × α) :
    Joined refs [j] m (join (m, changed) j).1 ∧
      ((join (m, changed) j).2 = true ↔ changed = true ∨
        (join (m, changed) j).1.Marked j.2.2 ∧ ¬ m.Marked j.2.2) := by
  unfold join
  split
  · rename_i hsources
    refine ⟨⟨hm.shade _, hblack.shade _, fun _ => black_shade,
      fun _ h => marked_shade.mpr (Or.inl h), fun b h => ?_, fun b h => ?_,
      fun b h => ?_, fun j' hj' _ _ => ?_⟩, ?_⟩
    · rcases marked_shade.mp h with h | rfl
      · exact .base h
      · exact .joint (.base hsources.1) (.base hsources.2) (by simp)
    · rcases marked_shade.mp h with h | rfl
      · exact Or.inl h
      · exact Or.inr ⟨j, by simp, rfl⟩
    · rw [color_shade, if_neg]
      rintro ⟨rfl, -⟩
      exact h (marked_shade.mpr (Or.inr rfl))
    · obtain rfl := List.mem_singleton.mp hj'
      exact marked_shade.mpr (Or.inr rfl)
    · simp only [Bool.or_eq_true, bne_iff_ne, shade_head?_ne hm,
        marked_shade, or_true, true_and]
  · rename_i hsources
    refine ⟨.refl hm hblack fun j' hj' ht hk => ?_, by simp⟩
    obtain rfl := List.mem_singleton.mp hj'
    exact absurd ⟨ht, hk⟩ hsources

theorem foldl_join (hm : m.Consistent) (hblack : m.BlackClosed refs)
    (changed : Bool) :
    Joined refs joints m (joints.foldl join (m, changed)).1 ∧
      ((joints.foldl join (m, changed)).2 = true ↔ changed = true ∨
        ∃ j ∈ joints, (joints.foldl join (m, changed)).1.Marked j.2.2 ∧
          ¬ m.Marked j.2.2) := by
  induction joints generalizing m changed with
  | nil => exact ⟨.refl hm hblack (by simp), by simp⟩
  | cons j joints ih =>
      rw [List.foldl_cons]
      obtain ⟨h₁, hc₁⟩ := join_joined hm hblack changed j
      generalize join (m, changed) j = s₁ at h₁ hc₁
      obtain ⟨m₁, changed₁⟩ := s₁
      obtain ⟨h₂, hc₂⟩ := ih h₁.consistent h₁.blackClosed changed₁
      refine ⟨h₁.trans h₂, ?_⟩
      rw [hc₂, hc₁]
      constructor
      · rintro ((hc | ⟨hnew, hold⟩) | ⟨j', hj', hnew, hold⟩)
        · exact Or.inl hc
        · exact Or.inr ⟨j, by simp, h₂.mono _ hnew, hold⟩
        · exact Or.inr ⟨j', by simp [hj'], hnew,
            fun h => hold (h₁.mono _ h)⟩
      · rintro (hc | ⟨j', hj', hnew, hold⟩)
        · exact Or.inl (Or.inl hc)
        · by_cases hmid : m₁.Marked j'.2.2
          · -- the target was marked by the first joint edge
            rcases h₁.target _ hmid with h | ⟨i, hi, hi'⟩
            · exact absurd h hold
            · obtain rfl := List.mem_singleton.mp hi
              rw [← hi'] at hmid hold
              exact Or.inl (Or.inr ⟨hmid, hold⟩)
          · rcases List.mem_cons.mp hj' with rfl | hj'
            · refine Or.inr ?_
              rcases h₂.target _ hnew with h | ⟨i, hi, hi'⟩
              · exact absurd h hmid
              · exact ⟨i, hi, hi' ▸ hnew, hi' ▸ hmid⟩
            · exact Or.inr ⟨j', hj', hnew, hmid⟩

structure Converged (refs : α → List α) (joints : List (α × α × α))
    (m m' : Marks α) : Prop where
  consistent : m'.Consistent
  blackClosed : m'.BlackClosed refs
  gray : m'.gray = []
  marked : ∀ b, m'.Marked b ↔ Reached refs joints m.Marked b
  color : ∀ b, ¬ m'.Marked b → m'.color b = m.color b

theorem converge_converged (nodes : List α) {scanFuel fuel : Nat}
    (hm : m.Consistent) (hblack : m.BlackClosed refs) (hgray : m.gray = [])
    (hrefs : ∀ a, ∀ b ∈ refs a, b ∈ nodes)
    (htargets : ∀ j ∈ joints, j.2.2 ∈ nodes)
    (hscan : nodes.length ≤ scanFuel) (hfuel : pending m nodes < fuel) :
    Converged refs joints m (m.converge refs joints scanFuel fuel) := by
  induction fuel generalizing m with
  | zero => omega
  | succ fuel ih =>
      obtain ⟨hj, hchanged⟩ :
          Joined refs joints m (joints.foldl join (m, false)).1 ∧ _ :=
        foldl_join hm hblack false
      have hr : joints.foldl join (m, false) = joinRound joints m := rfl
      rw [hr] at hj hchanged
      rw [converge]
      generalize joinRound joints m = r at hj hchanged
      have hnogray : ∀ b, m.Marked b → m.color b = .black := by
        rintro b (hg | hb)
        · rw [← hm.mem_gray, hgray] at hg
          simp at hg
        · exact hb
      have hs : Scanned refs r.1 (r.1.scanAll refs scanFuel) := by
        refine scanAll_scanned nodes hj.consistent hj.blackClosed ?_ hrefs
          (Nat.le_trans List.countP_le_length hscan)
        intro a ha
        have hga := (hj.consistent.mem_gray a).mp ha
        rcases hj.target a (Or.inl hga) with h | ⟨j, hj', rfl⟩
        · rw [(hj.black a).mpr (hnogray a h)] at hga
          contradiction
        · exact htargets j hj'
      have hmono : ∀ b, m.Marked b → (r.1.scanAll refs scanFuel).Marked b :=
        fun b hb => (hs.marked b).mpr ⟨b, hj.mono b hb, .refl⟩
      have hsound : ∀ b, (r.1.scanAll refs scanFuel).Marked b →
          Reached refs joints m.Marked b := by
        intro b hb
        obtain ⟨a, ha, hpath⟩ := (hs.marked b).mp hb
        exact (hj.sound a ha).of_path hpath
      have hcolor : ∀ b, ¬ (r.1.scanAll refs scanFuel).Marked b →
          (r.1.scanAll refs scanFuel).color b = m.color b := by
        intro b hb
        rw [hs.color b hb]
        exact hj.color b fun h => hb ((hs.marked b).mpr ⟨b, h, .refl⟩)
      have hscanned : ∀ b, (r.1.scanAll refs scanFuel).Marked b →
          (r.1.scanAll refs scanFuel).color b = .black := by
        rintro b (hg | hb)
        · rw [← hs.consistent.mem_gray, hs.gray] at hg
          simp at hg
        · exact hb
      cases hc : r.2 with
      | false =>
          simp only [Bool.false_eq_true, if_false]
          refine ⟨hs.consistent, hs.blackClosed, hs.gray,
            fun b => ⟨hsound b, ?_⟩, hcolor⟩
          -- nothing new was marked, so the joint edges are closed
          have hsame : ∀ b, r.1.Marked b → m.Marked b := by
            intro b hb
            rcases hj.target b hb with h | ⟨j, hj', rfl⟩
            · exact h
            · by_contra hold
              have := hchanged.mpr (Or.inr ⟨j, hj', hb, hold⟩)
              rw [hc] at this
              contradiction
          have hback : ∀ b, (r.1.scanAll refs scanFuel).Marked b →
              m.Marked b := by
            intro b hb
            obtain ⟨a, ha, hpath⟩ := (hs.marked b).mp hb
            exact ((Scanned.refl hm hblack hgray).marked b).mpr
              ⟨a, hsame a ha, hpath⟩
          intro hb
          refine hb.least hmono (fun ha hab => hs.blackClosed _ (hscanned _ ha) _ hab) ?_
          intro t k v ht hk htkv
          exact (hs.marked v).mpr ⟨v,
            hj.complete (t, k, v) htkv (hback t ht) (hback k hk), .refl⟩
      | true =>
          simp only [if_true]
          have hlt : pending (r.1.scanAll refs scanFuel) nodes <
              pending m nodes := by
            rcases hchanged.mp hc with h | ⟨j, hj', hnew, hold⟩
            · contradiction
            refine pending_lt (fun b hb => ?_) (htargets j hj')
              (fun hb => hold (Or.inr hb))
              (hscanned _ ((hs.marked _).mpr ⟨_, hnew, .refl⟩))
            exact hscanned b (hmono b (Or.inr hb))
          have hrec := ih hs.consistent hs.blackClosed hs.gray (by omega)
          refine ⟨hrec.consistent, hrec.blackClosed, hrec.gray, fun b => ?_,
            fun b hb => ?_⟩
          · rw [hrec.marked]
            constructor
            · exact fun h => h.least hsound .edge .joint
            · exact fun h => h.mono (fun a ha => .base (hmono a ha)) id id
          · rw [hrec.color b hb]
            exact hcolor b fun h => hb ((hrec.marked b).mpr (.base h))

/-- What the rounds promise when the worklist was not empty at their start. -/
structure Closing (refs : α → List α) (joints : List (α × α × α))
    (m m' : Marks α) : Prop where
  consistent : m'.Consistent
  blackClosed : m'.BlackClosed refs
  gray : m'.gray = []
  mono : ∀ b, m.Marked b → m'.Marked b
  sound : ∀ b, m'.Marked b → Reached refs joints m.Marked b
  color : ∀ b, ¬ m'.Marked b → m'.color b = m.color b

theorem converge_closing (nodes : List α) {scanFuel fuel : Nat}
    (hm : m.Consistent) (hblack : m.BlackClosed refs)
    (hgray : ∀ a ∈ m.gray, a ∈ nodes)
    (hrefs : ∀ a, ∀ b ∈ refs a, b ∈ nodes)
    (htargets : ∀ j ∈ joints, j.2.2 ∈ nodes)
    (hscan : nodes.length ≤ scanFuel) (hfuel : pending m nodes < fuel) :
    Closing refs joints m (m.converge refs joints scanFuel fuel) := by
  obtain ⟨fuel, rfl⟩ := Nat.exists_eq_add_of_le' (Nat.zero_lt_of_lt hfuel)
  obtain ⟨hj, hchanged⟩ :
      Joined refs joints m (joints.foldl join (m, false)).1 ∧ _ :=
    foldl_join hm hblack false
  have hr : joints.foldl join (m, false) = joinRound joints m := rfl
  rw [hr] at hj hchanged
  rw [converge]
  generalize joinRound joints m = r at hj hchanged
  have hs : Scanned refs r.1 (r.1.scanAll refs scanFuel) := by
    refine scanAll_scanned nodes hj.consistent hj.blackClosed ?_ hrefs
      (Nat.le_trans List.countP_le_length hscan)
    intro a ha
    have hga := (hj.consistent.mem_gray a).mp ha
    rcases hj.target a (Or.inl hga) with (h | h) | ⟨j, hj', rfl⟩
    · exact hgray a ((hm.mem_gray a).mpr h)
    · rw [(hj.black a).mpr h] at hga
      contradiction
    · exact htargets j hj'
  have hfirst : Closing refs joints m (r.1.scanAll refs scanFuel) := by
    refine ⟨hs.consistent, hs.blackClosed, hs.gray,
      fun b hb => (hs.marked b).mpr ⟨b, hj.mono b hb, .refl⟩, fun b hb => ?_,
      fun b hb => ?_⟩
    · obtain ⟨a, ha, hpath⟩ := (hs.marked b).mp hb
      exact (hj.sound a ha).of_path hpath
    · rw [hs.color b hb]
      exact hj.color b fun h => hb ((hs.marked b).mpr ⟨b, h, .refl⟩)
  have hscanned : ∀ b, (r.1.scanAll refs scanFuel).Marked b →
      (r.1.scanAll refs scanFuel).color b = .black := by
    rintro b (hg | hb)
    · rw [← hs.consistent.mem_gray, hs.gray] at hg
      simp at hg
    · exact hb
  cases hc : r.2 with
  | false => exact hfirst
  | true =>
      -- from here on the worklist is empty before each round
      have hlt : pending (r.1.scanAll refs scanFuel) nodes < pending m nodes := by
        rcases hchanged.mp hc with h | ⟨j, hj', hnew, hold⟩
        · contradiction
        refine pending_lt (fun b hb => ?_) (htargets j hj')
          (fun hb => hold (Or.inr hb))
          (hscanned _ ((hs.marked _).mpr ⟨_, hnew, .refl⟩))
        exact hscanned b (hfirst.mono b (Or.inr hb))
      have hrec : Converged refs joints _ _ :=
        converge_converged nodes hs.consistent hs.blackClosed hs.gray hrefs
          htargets hscan (by omega : _ < fuel)
      simp only [if_true]
      refine ⟨hrec.consistent, hrec.blackClosed, hrec.gray, fun b hb => ?_,
        fun b hb => ?_, fun b hb => ?_⟩
      · exact (hrec.marked b).mpr (.base (hfirst.mono b hb))
      · exact ((hrec.marked b).mp hb).least hfirst.sound .edge .joint
      · rw [hrec.color b hb]
        exact hfirst.color b fun h => hb ((hrec.marked b).mpr (.base h))

theorem converge_congr {refs' : α → List α} (hm : m.Consistent)
    (h : ∀ a, m.color a ≠ .black → refs a = refs' a) (scanFuel fuel : Nat) :
    m.converge refs joints scanFuel fuel = m.converge refs' joints scanFuel fuel := by
  induction fuel generalizing m with
  | zero => rfl
  | succ fuel ih =>
      have hj : Joined (fun _ => []) joints m (joinRound joints m).1 :=
        (foldl_join hm (fun _ _ _ hb => absurd hb List.not_mem_nil) false).1
      have hround : ∀ a, (joinRound joints m).1.color a ≠ .black → refs a = refs' a :=
        fun a ha => h a fun hb => ha ((hj.black a).mpr hb)
      have hconsistent : ((joinRound joints m).1.scanAll refs scanFuel).Consistent :=
        hj.consistent.scanAll scanFuel
      have hrest := ih hconsistent fun a ha => hround a fun hb => ha (black_scanAll hb)
      simp only [converge]
      rw [hrest, scanAll_congr hj.consistent hround]

end Converge

/-! ### The white of a cycle -/

def Unpainted (side : Bool) (m : Marks α) : Prop :=
  ∀ a, ¬ m.Marked a → m.color a = .white side

namespace Unpainted

variable {side : Bool}

theorem shade (h : m.Unpainted side) (a : α) : (m.shade a).Unpainted side := by
  intro b hb
  rw [marked_shade, not_or] at hb
  rw [color_shade, if_neg fun hab => hb.2 hab.1]
  exact h b hb.1

theorem shadeAll (h : m.Unpainted side) (l : List α) :
    (m.shadeAll l).Unpainted side := by
  induction l generalizing m with
  | nil => exact h
  | cons a l ih => exact ih (h.shade a)

theorem scan (h : m.Unpainted side) (hm : m.Consistent) (refs : α → List α) :
    (m.scan refs).Unpainted side := by
  intro a ha
  rw [color_scan_of_unmarked ha]
  exact h a fun h' => ha ((marked_scan hm).mpr (Or.inl h'))

theorem scanAll (h : m.Unpainted side) (hm : m.Consistent)
    (refs : α → List α) (fuel : Nat) : (m.scanAll refs fuel).Unpainted side := by
  induction fuel generalizing m with
  | zero => exact h
  | succ fuel ih =>
      rw [Marks.scanAll]
      split
      · exact h
      · exact ih (h.scan hm refs) hm.scan

theorem join {s : Marks α × Bool} (h : s.1.Unpainted side) (j : α × α × α) :
    (Marks.join s j).1.Unpainted side := by
  unfold Marks.join
  split
  · exact h.shade _
  · exact h

theorem foldl_join {s : Marks α × Bool} (h : s.1.Unpainted side)
    (joints : List (α × α × α)) :
    (joints.foldl Marks.join s).1.Unpainted side := by
  induction joints generalizing s with
  | nil => exact h
  | cons j joints ih => exact ih (h.join j)

end Unpainted

omit [DecidableEq α] in
theorem Unpainted.isWhite_iff {side : Bool} (h : m.Unpainted side) (a : α) :
    m.color a = .white side ↔ ¬ m.Marked a := by
  constructor
  · rintro hw (hg | hb)
    · rw [hw] at hg
      contradiction
    · rw [hw] at hb
      contradiction
  · exact h a

theorem foldl_join_of_unmarked {s : Marks α × Bool}
    {joints : List (α × α × α)} (hs : ∀ j ∈ joints, ¬ s.1.Marked j.1) :
    joints.foldl join s = s := by
  induction joints with
  | nil => rfl
  | cons j joints ih =>
      have hj : join s j = s := if_neg fun h => hs j (by simp) h.1
      rw [List.foldl_cons, hj]
      exact ih fun i hi => hs i (List.mem_cons_of_mem _ hi)

end Marks

end Tricolor
