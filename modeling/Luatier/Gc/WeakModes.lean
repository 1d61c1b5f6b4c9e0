import Luatier.Gc.ModeFields
import Luatier.Gc.WeakEntries

/-!
# Weak modes through collections

A sweep keeps the metatable of every table that it keeps, and the field of the
metatable with it.  So a run in which no metatable in use is given another mode
starts each of its collections with the weak modes of the fields.
-/

namespace Luatier

open Tricolor

namespace State

variable {L L' : State} {name : Addr}

/-! ## The tables when the marking of a sweep ends -/

theorem clearDeadStacks_unswept (L : State) : Unswept L L.clearDeadStacks := by
  have hfold : ∀ (threads : List Addr) (L : State),
      Unswept L (threads.foldl clearDeadStack L) := by
    intro threads
    induction threads with
    | nil => exact .refl
    | cons a threads ih =>
        intro L
        refine Unswept.trans (.updateCell fun o _ => ?_) (ih (L.clearDeadStack a))
        cases o <;> rfl
  exact hfold L.rootThreads L

theorem separate_unswept (L : State) (cells : List (Addr × Object)) :
    Unswept L (L.separate cells).2 := by
  induction cells generalizing L with
  | nil => exact .refl L
  | cons cell cells ih =>
      obtain ⟨a, o⟩ := cell
      rw [separate]
      split
      · refine Unswept.trans ?_ (ih (L.objectHasGc a o).2)
        rcases L.objectHasGc_state a o with h | ⟨mt, h⟩
        · rw [h]
          exact .refl L
        · rw [h]
          exact L.getTm_unswept mt .gc
      · exact ih L

def firstClear (L : State) (t : Table) : Table :=
  if t.weakMode != 0 then t.clearWeakEntries L.deadValue 2 else t

theorem SameTable.firstClear {t t' : Table} (h : SameTable t t') :
    SameTable (L.firstClear t) (L.firstClear t') := by
  unfold State.firstClear
  rw [h.weakMode]
  split
  · simp only [Table.clearWeakEntries, h.array, h.hash, h.weakMode]
    exact ⟨rfl, rfl, h.metatable, rfl⟩
  · exact h

theorem SameTable.trans {t₁ t₂ t₃ : Table} (h : SameTable t₁ t₂) (h' : SameTable t₂ t₃) :
    SameTable t₁ t₃ :=
  ⟨h'.array.trans h.array, h'.hash.trans h.hash, h'.metatable.trans h.metatable,
    h'.weakMode.trans h.weakMode⟩

structure ClearedOnce (L M : State) : Prop where
  string? : M.string? = L.string?
  kept : ∀ {a t}, L.table? a = some t →
    ∃ u, M.table? a = some u ∧ SameTable (L.firstClear t) u
  before : ∀ {a u}, M.table? a = some u →
    ∃ t, L.table? a = some t ∧ SameTable (L.firstClear t) u

theorem sweepMarked_clearedOnce (L : State) : ClearedOnce L L.sweepMarked := by
  have hbefore : Unswept L (L.clearDeadStacks.separate L.clearDeadStacks.heap).2 :=
    L.clearDeadStacks_unswept.trans (separate_unswept _ _)
  have hgc : (L.clearDeadStacks.separate L.clearDeadStacks.heap).2.gc = L.gc :=
    (separate_eq _ _).2.2.trans L.clearDeadStacks_cleared.gc
  have hafter : Unswept _ L.sweepMarked := (atomicMark_onlyMarks
    (L.clearDeadStacks.separate L.clearDeadStacks.heap).2 L.sweepPending).unswept
  generalize (L.clearDeadStacks.separate L.clearDeadStacks.heap).2 = S at *
  have hclear : S.firstClear = L.firstClear := by
    have hdead : S.deadValue = L.deadValue := by
      funext v
      simp only [deadValue, isWhite, hgc]
    funext t
    simp only [firstClear, hdead]
  have hmid : ∀ a, (S.clearWeakTables 2).table? a = (S.table? a).map L.firstClear := by
    intro a
    rw [table?_clearWeakTables, ← hclear]
    rfl
  have hstring : (S.clearWeakTables 2).string? = S.string? := by
    funext a
    simp only [State.string?, State.object?, clearWeakTables, Heap.object?_mapCells]
    cases S.heap.object? a with
    | none => rfl
    | some o => cases o <;> rfl
  refine ⟨hafter.string?.trans (hstring.trans hbefore.string?), fun ht => ?_, fun hu => ?_⟩
  · obtain ⟨s, hs, hts⟩ := hbefore.kept ht
    obtain ⟨u, hu, hsu⟩ := hafter.kept (a := _) (t := L.firstClear s) (by rw [hmid, hs]; rfl)
    exact ⟨u, hu, hts.firstClear.trans hsu⟩
  · obtain ⟨w, hw, hwu⟩ := hafter.before hu
    rw [hmid, Option.map_eq_some_iff] at hw
    obtain ⟨s, hs, rfl⟩ := hw
    obtain ⟨t, ht, hts⟩ := hbefore.before hs
    exact ⟨t, ht, hts.firstClear.trans hwu⟩

/-! ## Lookups in cleared tables -/

theorem get_firstClear {I : InternedStrings} {t : Table} (wf : t.Wf I)
    (hlive : L.deadValue (.string name) = false) :
    (L.firstClear t).Wf I ∧ (L.firstClear t).get I (.string name) =
      L.clearValue t (t.get I (.string name)) := by
  have hkey : Table.ValidKey (.string name) := ⟨by simp, rfl⟩
  obtain ⟨-, hvalues⟩ := mask_two t.weakMode
  unfold firstClear
  by_cases hmode : t.weakMode = 0
  · simp [hmode, wf, clearValue, Table.weakValues]
  · simp only [bne_iff_ne, ne_eq, hmode, not_false_eq_true, if_true]
    refine ⟨wf.clearWeakEntries _ 2, ?_⟩
    rw [wf.get_clearWeakEntries_of_live _ 2 hkey hlive, Table.clearValue, hvalues]
    rfl

theorem get_finalClear {I : InternedStrings} {t : Table} (wf : t.Wf I)
    (hlive : L.deadValue (.string name) = false) :
    (L.finalClear t).Wf I ∧ (L.finalClear t).get I (.string name) =
      L.clearValue t (t.get I (.string name)) := by
  have hkey : Table.ValidKey (.string name) := ⟨by simp, rfl⟩
  obtain ⟨hwf, hget⟩ := get_firstClear (L := L) wf hlive
  have hfinal : L.finalClear t = if (L.firstClear t).weakMode != 0 then
      (L.firstClear t).clearWeakEntries L.deadValue 1 else L.firstClear t := rfl
  obtain ⟨hvalues, -⟩ := mask_one (L.firstClear t).weakMode
  rw [hfinal]
  split
  · refine ⟨hwf.clearWeakEntries _ 1, ?_⟩
    rw [hwf.get_clearWeakEntries_of_live _ 1 hkey hlive, Table.clearValue, hvalues, hget]
    rfl
  · exact ⟨hwf, hget⟩

theorem exists_node_of_get {I : InternedStrings} {t : Table} (wf : t.Wf I)
    (hget : t.get I (.string name) ≠ .nil) :
    ∃ n ∈ t.hash, n.used = true ∧ n.key = .string name ∧
      n.value = t.get I (.string name) := by
  have hcanon : Table.Canonical (.string name) := ⟨⟨by simp, rfl⟩, rfl⟩
  have hpres : ∃ i < t.hash.length, t.slotView i = .key (.string name) := by
    by_contra hnone
    refine hget (wf.get_absent hcanon rfl fun i hi hi' => ?_)
    exact hnone ⟨i, hi, hi'⟩
  obtain ⟨i, hi, hslot⟩ := hpres
  obtain ⟨hused, hkey, -⟩ := Table.slotView_eq_key.mp hslot
  exact ⟨t.node i, Table.getD_used hused, hused, hkey, (wf.get_present hi hslot).symm⟩

theorem firstClear_keys {t : Table} {P : TValue → Prop} (h : t.Keyed P) :
    (L.firstClear t).Keyed P := by
  unfold firstClear
  split
  · obtain ⟨hkeys, -⟩ := mask_two t.weakMode
    intro n hn hu
    simp only [Table.clearWeakEntries, hkeys, bne_self_eq_false, Bool.false_and,
      Bool.false_eq_true, if_false] at hn
    obtain ⟨n₀, hn₀, rfl⟩ := List.mem_map.mp hn
    split at hu
    · exact absurd hu (by simp_all)
    · rename_i hused
      simpa [hused] using h n₀ hn₀ (by simpa using hused)
  · exact h

theorem finalClear_keys {t : Table} {P : TValue → Prop} (h : t.Keyed P) :
    (L.finalClear t).Keyed fun k =>
      k = .nil ∨ P k ∧ (t.weakKeys = true → L.deadValue k = false) := by
  intro n hn hu
  rw [finalClear_eq] at hn
  obtain ⟨n₀, hn₀, rfl⟩ := List.mem_map.mp hn
  unfold clearNode at hu ⊢
  split at hu
  · rename_i hunused
    simp [hu] at hunused
  · rename_i hused
    rw [if_neg hused]
    split
    · exact Or.inl rfl
    · rename_i hlive
      refine Or.inr ⟨h n₀ hn₀ (by simpa using hused), fun hweak => ?_⟩
      simpa [hweak] using hlive

/-! ## What a sweep keeps -/

theorem deadValue_of_marked {s : Addr} (h : L.gc.marks.Marked s) :
    L.deadValue (.string s) = false := by
  change (L.gc.marks.color s == .white L.gc.white) = false
  rcases h with h | h <;> rw [h] <;> rfl

theorem Guarded.marked_of_live (h : L.Guarded) {s : Addr}
    (hlive : L.deadValue (.string s) = false) : L.gc.marks.Marked s := by
  by_contra hnot
  have hwhite : L.isWhite s = true := by
    simp only [isWhite, h.unpainted s hnot, beq_self_eq_true]
  have hdead : L.deadValue (.string s) = L.isWhite s := rfl
  rw [hdead, hwhite] at hlive
  contradiction

theorem allocated_of_string? {s : Addr} (h : (L.string? s).isSome) :
    L.heap.allocated s = true := by
  unfold string? at h
  cases ho : L.object? s with
  | none => simp [ho] at h
  | some o => simp [Heap.allocated, show L.heap.object? s = some o from ho]

theorem allocated_of_table? {a : Addr} (h : (L.table? a).isSome) :
    L.heap.allocated a = true := by
  unfold table? at h
  cases ho : L.object? a with
  | none => simp [ho] at h
  | some o => simp [Heap.allocated, show L.heap.object? a = some o from ho]

theorem SweepDrained.marked {M : State} (h : SweepDrained L M) {a b : Addr} {u : Table}
    (ha : M.gc.marks.Marked a) (hu : M.table? a = some u)
    (hb : b ∈ M.pointers a (.table u)) (halloc : M.heap.allocated b = true) :
    M.gc.marks.Marked b := by
  have hblack : M.gc.marks.color a = .black := by
    rcases ha with hg | hb
    · rw [← h.guarded.consistent.mem_gray, h.gray] at hg
      contradiction
    · exact hb
  exact h.guarded.marked_of_pointers (table?_eq_some.mp hu) hblack hb halloc

theorem Guarded.sweepObjects_table? (h : L.Guarded) {a : Addr} {t' : Table} :
    L.sweepObjects.table? a = some t' ↔ L.sweepMarked.gc.marks.Marked a ∧
      ∃ u, L.sweepMarked.table? a = some u ∧ t' = L.sweepMarked.finalClear u := by
  rw [table?_eq_some, h.sweepObjects_object?]
  by_cases ha : L.sweepMarked.gc.marks.Marked a
  · simp only [ha, if_true, true_and, table?]
    cases L.sweepMarked.object? a with
    | none => simp
    | some o => cases o <;> simp [Object.mapTable, eq_comm]
  · simp [ha]

theorem Guarded.sweepObjects_string? (h : L.Guarded) {s : Addr}
    (hs : L.sweepMarked.gc.marks.Marked s) :
    L.sweepObjects.string? s = L.string? s := by
  rw [← L.sweepMarked_clearedOnce.string?]
  simp only [string?, h.sweepObjects_object?, hs, if_true]
  cases L.sweepMarked.object? s with
  | none => rfl
  | some o => cases o <;> rfl

structure SweptTable (L M : State) (name : Addr) (t t' : Table) : Prop where
  readable : L.Readable name t'
  keys : t'.Keyed fun k => ∀ s, k = .string s → M.gc.marks.Marked s
  field : L.modeField name t' = M.clearValue t (L.clearValue t (L.modeField name t))
  marked : ∀ s, L.modeField name t' = .string s → M.gc.marks.Marked s

theorem clearValue_eq_string {t : Table} {v : TValue} {s : Addr}
    (h : L.clearValue t v = .string s) :
    v = .string s ∧ (t.weakValues = true → L.deadValue (.string s) = false) := by
  unfold clearValue at h
  split at h
  · contradiction
  · rename_i hlive
    subst h
    refine ⟨rfl, fun hweak => ?_⟩
    simpa [hweak] using hlive

theorem clearValue_congr_table {t u : Table} (h : u.weakMode = t.weakMode) :
    L.clearValue u = L.clearValue t := by
  have hvalues : u.weakValues = t.weakValues := by simp only [Table.weakValues, h]
  funext v
  simp only [clearValue, hvalues]

theorem clearValue_nil_or (t : Table) (v : TValue) :
    L.clearValue t v = .nil ∨ L.clearValue t v = v := by
  unfold clearValue
  split
  · exact Or.inl rfl
  · exact Or.inr rfl

theorem modeOfValue_cleared {v v' : TValue} (hv : ∀ s, v ≠ .string s)
    (h : v' = .nil ∨ v' = v) : L.modeOfValue v' = L.modeOfValue v := by
  rcases h with rfl | rfl
  · cases v with
    | string s => exact absurd rfl (hv s)
    | _ => rfl
  · rfl

theorem ModesKept.sweptTable (h : L.ModesKept name) (hL : L.Guarded)
    (hname : L.gc.marks.Marked name) {a : Addr} {t u : Table} (ht : L.table? a = some t)
    (hu : L.sweepMarked.table? a = some u) (hsame : SameTable (L.firstClear t) u)
    (ha : L.sweepMarked.gc.marks.Marked a) :
    SweptTable L L.sweepMarked name t (L.sweepMarked.finalClear u) := by
  have hdrained := hL.sweepMarked
  have hstring := L.sweepMarked_clearedOnce.string?
  generalize L.sweepMarked = M at *
  have hread := h.readable a t ht
  have hname' := hdrained.mono name hname
  have hmode : u.weakMode = t.weakMode := by
    rw [hsame.weakMode, firstClear]
    split <;> rfl
  have hkeys : u.weakKeys = t.weakKeys := by simp only [Table.weakKeys, hmode]
  have hvalues : u.weakValues = t.weakValues := by simp only [Table.weakValues, hmode]
  obtain ⟨hwf₁, hget₁⟩ := get_firstClear hread.wf (deadValue_of_marked hname)
  have hwf : u.Wf L.interned := hwf₁.congr hsame.array hsame.hash
  have hfield₁ : L.modeField name u = L.clearValue t (L.modeField name t) := by
    unfold modeField
    rw [Table.get_congr hsame.array hsame.hash]
    exact hget₁
  obtain ⟨hwf', hget⟩ := get_finalClear hwf (deadValue_of_marked hname')
  have hfield : L.modeField name (M.finalClear u) =
      M.clearValue t (L.clearValue t (L.modeField name t)) := by
    rw [← hfield₁, ← clearValue_congr_table hmode]
    exact hget
  have halloc : ∀ s, (L.string? s).isSome → M.heap.allocated s = true := by
    intro s hs
    refine allocated_of_string? ?_
    rw [hstring]
    exact hs
  -- the keys of a table that is not weak in them are among its references
  have hcleared : u.Keyed fun k => L.LiveKey k ∧
      (u.weakKeys = false → ∀ s, k = .string s → M.gc.marks.Marked s) := by
    have hlive : u.Keyed L.LiveKey := (firstClear_keys hread.keys).congr hsame.hash
    intro n hn hused
    refine ⟨hlive n hn hused, fun hweak s hs => ?_⟩
    refine hdrained.marked ha hu ?_ (halloc s (hlive n hn hused s hs))
    simp only [pointers, List.mem_append, List.mem_flatMap]
    refine Or.inr ⟨n, hn, ?_⟩
    simp [hused, hweak, hs, TValue.asGc?]
  have hfinal := finalClear_keys (L := M) hcleared
  refine ⟨⟨hwf', fun n hn hused s hs => ?_, fun s hs => ?_⟩, fun n hn hused s hs => ?_,
    hfield, fun s hs => ?_⟩
  · rcases hfinal n hn hused with hnil | ⟨⟨hlive, -⟩, -⟩
    · rw [hnil] at hs
      contradiction
    · exact hlive s hs
  · rw [hfield] at hs
    exact hread.field s (clearValue_eq_string (clearValue_eq_string hs).1).1
  · rcases hfinal n hn hused with hnil | ⟨⟨-, hmarked⟩, hdead⟩
    · rw [hnil] at hs
      contradiction
    · by_cases hweak : u.weakKeys = true
      · exact hdrained.guarded.marked_of_live (hs ▸ hdead hweak)
      · exact hmarked (by simpa using hweak) s hs
  · rw [hfield] at hs
    obtain ⟨hvalue, hlive⟩ := clearValue_eq_string hs
    have hold := (clearValue_eq_string hvalue).1
    have hsome := hread.field s hold
    by_cases hweak : t.weakValues = true
    · exact hdrained.guarded.marked_of_live (hlive hweak)
    by_cases hweakKeys : t.weakKeys = true
    · -- the name is marked, so an ephemeron keeps the value
      obtain ⟨n, hn, hused, hkey, hval⟩ := exists_node_of_get hread.wf
        (show t.get L.interned (.string name) ≠ .nil from by
          rw [show t.get L.interned (.string name) = _ from hold]
          simp)
      refine hdrained.joint (t := a) (k := name) (v := s) ?_ ha hname'
      refine List.mem_flatMap.mpr ⟨(a, .table t), Heap.mem_of_object?
        (table?_eq_some.mp ht), ?_⟩
      have hval' : n.value = .string s := hval.trans hold
      simp only [cellEphemerons, hweakKeys, Bool.true_and]
      rw [if_pos (by simpa using hweak), List.mem_filterMap]
      refine ⟨n, hn, ?_⟩
      simp [entryEphemeron, hused, hkey, hval', TValue.asGc?, allocated_of_string? hsome]
    · have hfound : u.get L.interned (.string name) = .string s := by
        rw [show u.get L.interned (.string name) = _ from hfield₁]
        exact hvalue
      obtain ⟨n, hn, hused, hkey, hval⟩ := exists_node_of_get hwf
        (show u.get L.interned (.string name) ≠ .nil by simp [hfound])
      refine hdrained.marked ha hu ?_ (halloc s hsome)
      simp only [pointers, List.mem_append, List.mem_flatMap]
      refine Or.inr ⟨n, hn, ?_⟩
      rw [hfound] at hval
      simp [hused, hkeys, hvalues, hweak, hweakKeys, hval, TValue.asGc?]

theorem ModesKept.sweepObjects (h : L.ModesKept name) (hL : L.Guarded)
    (hname : L.gc.marks.Marked name) (hmarked : L.ModesMarked) :
    L.sweepObjects.ModesKept name := by
  have hdrained := hL.sweepMarked
  have hcleared := L.sweepMarked_clearedOnce
  have hnamed : L.sweepObjects.modeName = some name := by
    unfold modeName
    rw [L.sweepObjects_frame.2]
    exact h.named
  have hstring := fun s hs => hL.sweepObjects_string? (s := s) hs
  have hstringName := hstring name (hdrained.mono name hname)
  -- each table that is left, and the one it was
  have hback : ∀ {a t'}, L.sweepObjects.table? a = some t' → ∃ t,
      L.table? a = some t ∧ L.sweepMarked.gc.marks.Marked a ∧
        t'.metatable = t.metatable ∧ t'.weakMode = t.weakMode ∧
        SweptTable L L.sweepMarked name t t' := by
    intro a t' ht'
    obtain ⟨ha, u, hu, rfl⟩ := hL.sweepObjects_table?.mp ht'
    obtain ⟨t, ht, hsame⟩ := hcleared.before hu
    have hmeta : u.metatable = t.metatable ∧ u.weakMode = t.weakMode := by
      rw [hsame.metatable, hsame.weakMode, firstClear]
      split <;> exact ⟨rfl, rfl⟩
    refine ⟨t, ht, ha, ?_, ?_, h.sweptTable hL hname ht hu hsame ha⟩
    · rw [finalClear_eq]
      exact hmeta.1
    · rw [finalClear_eq]
      exact hmeta.2
  -- the metatable of a table that is left
  have hmeta : ∀ {a t m}, L.table? a = some t → L.sweepMarked.gc.marks.Marked a →
      t.metatable = some m → ∃ tm tm', L.table? m = some tm ∧
        L.sweepObjects.table? m = some tm' ∧
        SweptTable L L.sweepMarked name tm tm' := by
    intro a t m ht ha hm
    obtain ⟨u, hu, hsame⟩ := hcleared.kept ht
    obtain ⟨tm, htm⟩ := Option.isSome_iff_exists.mp (h.metatable a t m ht hm)
    obtain ⟨um, hum, hsameM⟩ := hcleared.kept htm
    have hum' : u.metatable = some m := by
      rw [hsame.metatable, firstClear]
      split <;> exact hm
    have hmarked : L.sweepMarked.gc.marks.Marked m := by
      refine hdrained.marked ha hu ?_ (allocated_of_table? (by simp [hum]))
      simp [pointers, hum']
    exact ⟨tm, L.sweepMarked.finalClear um, htm,
      hL.sweepObjects_table?.mpr ⟨hmarked, um, hum, rfl⟩,
      h.sweptTable hL hname htm hum hsameM hmarked⟩
  refine ⟨hnamed, hstringName ▸ h.allocated, fun a t' ht' => ?_, fun a t' m ht' hm => ?_,
    fun a t' ht' => ?_⟩
  · obtain ⟨t, ht, ha, -, -, hswept⟩ := hback ht'
    exact hswept.readable.congr rfl rfl hstringName
      (fun n hn hu s hs => hstring s (hswept.keys n hn hu s hs))
      (fun s hs => hstring s (hswept.marked s hs))
  · obtain ⟨t, ht, ha, hsame, -⟩ := hback ht'
    obtain ⟨tm, tm', -, htm', -⟩ := hmeta ht ha (hsame ▸ hm)
    simp [htm']
  · obtain ⟨t, ht, ha, hsame, hmode, -⟩ := hback ht'
    rw [hmode, hsame, h.coherent a t ht]
    refine (h.weakModeOf_congr hnamed fun m hm => ?_).symm
    obtain ⟨tm, tm', htm, htm', hswept⟩ := hmeta ht ha hm
    refine ⟨tm, tm', htm, htm', ?_⟩
    rw [modeField_eq rfl rfl hstringName,
      modeOfValue_eq fun s hs => hstring s (hswept.marked s hs), hswept.field]
    by_cases hfield : ∃ s, L.modeField name tm = .string s
    · obtain ⟨s, hfield⟩ := hfield
      rw [hfield]
      by_cases hweak : tm.weakValues = true
      · have hs : L.gc.marks.Marked s :=
          hmarked name m tm s h.named ⟨a, t, ht, hm⟩ htm hweak hfield
        simp [clearValue, deadValue_of_marked hs,
          deadValue_of_marked (hdrained.mono s hs)]
      · simp [clearValue, hweak]
    · refine modeOfValue_cleared (fun s hs => hfield ⟨s, hs⟩) ?_
      rcases L.sweepMarked.clearValue_nil_or tm
        (L.clearValue tm (L.modeField name tm)) with hnil | hsame
      · exact Or.inl hnil
      · rw [hsame]
        exact L.clearValue_nil_or tm (L.modeField name tm)

/-! ## The mark of the name -/

theorem barriers_marked {a b : Addr} (values : List TValue) (h : L.gc.marks.Marked b) :
    (L.barriers a values).gc.marks.Marked b := by
  rw [barriers_eq]
  split
  · exact Marks.marked_shadeAll.mpr (Or.inl h)
  · exact h

theorem link_marked {a b : Addr} (obj : Object) (ha : L.fresh a = true)
    (hb : L.heap.allocated b = true) (h : L.gc.marks.Marked b) :
    (L.link a obj).gc.marks.Marked b := by
  have hne : b ≠ a := by
    rintro rfl
    simp [fresh, hb] at ha
  simpa only [link, Marks.Marked, Function.update_apply, hne, if_false] using h

theorem act_marked {x : Action} (hx : L.act x = some L') {b : Addr}
    (hb : L.heap.allocated b = true) (h : L.gc.marks.Marked b) : L'.gc.marks.Marked b := by
  have hstore : ∀ {a : Addr} {t : Table} {res : Except String Stored},
      L.table? a = some t → (L.storeTable a res).gc.marks.Marked b := by
    intro a t res _
    cases res with
    | error e => exact h
    | ok r => exact barriers_marked r.barriers h
  cases x with
  | create a obj =>
      simp only [State.act, Option.ite_none_right_eq_some] at hx
      obtain rfl := Option.some.inj hx.2
      exact link_marked obj hx.1 hb h
  | intern a s =>
      simp only [State.act, Option.ite_none_right_eq_some] at hx
      obtain rfl := Option.some.inj hx.2
      exact link_marked (.string s) hx.1 hb h
  | set a key value =>
      obtain ⟨t, ht, rfl⟩ := Option.map_eq_some_iff.mp hx
      exact hstore ht
  | setInt a i value =>
      obtain ⟨t, ht, rfl⟩ := Option.map_eq_some_iff.mp hx
      exact hstore ht
  | setMetatable a mt =>
      obtain ⟨t, -, rfl⟩ := Option.map_eq_some_iff.mp hx
      exact barriers_marked (tableOf mt) h
  | setUserdataMetatable a mt =>
      obtain ⟨u, -, rfl⟩ := Option.map_eq_some_iff.mp hx
      exact barriers_marked (tableOf mt) h
  | setUservalue a uv =>
      obtain ⟨u, -, rfl⟩ := Option.map_eq_some_iff.mp hx
      exact barriers_marked [uv] h
  | setUpval a v =>
      obtain ⟨uv, -, rfl⟩ := Option.map_eq_some_iff.mp hx
      refine barriers_marked [v] ?_
      split
      · cases uv.thread <;> exact h
      · exact h
  | closeUpval a =>
      obtain ⟨uv, -, rfl⟩ := Option.map_eq_some_iff.mp hx
      unfold upvalClose
      split
      · exact barriers_marked [L.upvalGet uv] h
      · exact h
  | setThread a th =>
      obtain ⟨old, -, rfl⟩ := Option.map_eq_some_iff.mp hx
      exact h
  | setTypeMt i mt =>
      obtain rfl := Option.some.inj hx
      exact h
  | resume a =>
      obtain ⟨th, -, rfl⟩ := Option.map_eq_some_iff.mp hx
      exact h
  | cacheClosure a cl =>
      obtain ⟨p, -, rfl⟩ := Option.map_eq_some_iff.mp hx
      exact h

def NameMarked (L : State) (name : Addr) : Prop :=
  (∃ a, L.gc.marks.Marked a) → L.gc.marks.Marked name

theorem NameMarked.congr (h : L.NameMarked name)
    (hcolor : L'.gc.marks.color = L.gc.marks.color) : L'.NameMarked name := by
  unfold NameMarked Marks.Marked at *
  rw [hcolor]
  exact h

theorem ModesKept.nameMarked_markRoots (h : L.ModesKept name) :
    L.clearGray.markRoots.NameMarked name := by
  intro _
  rw [markRoots, markAll_eq]
  refine Marks.marked_shadeAll.mpr (Or.inr (List.mem_filter.mpr ⟨?_, ?_⟩))
  · have hname := h.named
    unfold modeName at hname
    have hmem : some name ∈ L.tmNames := by
      rw [List.getD_eq_getElem?_getD] at hname
      cases hget : L.tmNames[TmEvent.mode.ctorIdx]? with
      | none => simp [hget] at hname
      | some o =>
          rw [hget, Option.getD_some] at hname
          exact hname ▸ List.mem_of_getElem? hget
    refine List.mem_append_right _ (List.mem_filterMap.mpr ⟨some name, hmem, rfl⟩)
  · exact allocated_of_string? h.allocated

theorem NameMarked.propagateOne (h : L.NameMarked name) (hL : L.Guarded) :
    L.propagateOne.NameMarked name := by
  obtain ⟨-, hmarks⟩ := propagateOne_scan L
  rintro ⟨a, ha⟩
  rw [hmarks, Marks.marked_scan hL.consistent] at ha ⊢
  refine Or.inl (h ?_)
  rcases ha with ha | ⟨b, hb, -⟩
  · exact ⟨a, ha⟩
  · exact ⟨b, Or.inl ((hL.consistent.mem_gray b).mp (List.mem_of_mem_head? hb))⟩

end State

/-! ## Runs -/

namespace Config

open State

variable {c c' : Config} {name : Addr}

/--
An event after which the weak modes are still right.  The program uses live
values and leaves the modes of the metatables in use; a sweep belongs to a
cycle that marked its roots, and has met what weak metatables in use say.
-/
def Attended (c : Config) : Event → Prop
  | .act x => c.state.Covered x ∧ c.state.Live x ∧ c.state.SameMode x
  | e => c.sweeps e = true → (∃ a, c.state.gc.marks.Marked a) ∧ c.state.ModesMarked

def AttendedStep (c c' : Config) : Prop :=
  ∃ e, c.Attended e ∧ c.step e = some c'

theorem Attended.sweep {e : Event} (h : c.Attended e) (hs : c.sweeps e = true) :
    (∃ a, c.state.gc.marks.Marked a) ∧ c.state.ModesMarked := by
  cases e with
  | act x => simp [Config.sweeps] at hs
  | _ => exact h hs

structure ModesInv (c : Config) (name : Addr) : Prop where
  cycle : c.Cycle
  modes : c.state.ModesKept name
  marked : c.state.NameMarked name

theorem ModesInv.collectStep_marked (h : c.ModesInv name) :
    c.collectStep.state.NameMarked name := by
  cases hphase : c.state.gc.phase with
  | pause =>
      rw [collectStep_of_pause hphase]
      exact h.modes.nameMarked_markRoots
  | propagate =>
      simp only [Config.collectStep, State.step, hphase]
      by_cases hgray : c.state.gc.marks.gray = []
      · simp only [hgray, if_true]
        exact h.marked
      · simp only [hgray, if_false]
        exact h.marked.propagateOne h.cycle.guarded
  | sweep =>
      simp only [Config.collectStep, hphase]
      obtain ⟨-, hrest, -⟩ := h.cycle.guarded.swept
      generalize c.state.sweepObjects = L at *
      split
      · rintro ⟨a, ha⟩
        exact absurd ha (hrest a)
      · rintro ⟨a, ha⟩
        exact absurd ha (hrest a)

theorem ModesInv.step_marked (h : c.ModesInv name) {e : Event} (he : c.Attended e)
    (hstep : c.step e = some c') : c'.state.NameMarked name := by
  cases e with
  | act x =>
      simp only [Config.step, Option.ite_none_right_eq_some] at hstep
      obtain ⟨L', hact, rfl⟩ := Option.map_eq_some_iff.mp hstep.2
      have hp := h.cycle.guarded.act he.1 hact
      rintro ⟨a, ha⟩
      refine act_marked hact (allocated_of_string? h.modes.allocated) (h.marked ?_)
      by_contra hnone
      exact hp.resting (fun b hb => hnone ⟨b, hb⟩) a ha
  | collectStep =>
      simp only [Config.step, Option.ite_none_right_eq_some] at hstep
      obtain rfl := Option.some.inj hstep.2
      exact h.collectStep_marked
  | collectFull =>
      simp only [Config.step] at hstep
      split at hstep
      · contradiction
      split at hstep <;> obtain rfl := Option.some.inj hstep
      · exact h.marked
      · exact h.marked
  | turn =>
      simp only [Config.step] at hstep
      split at hstep
      · rename_i rest hc
        split at hstep
        · rename_i hpause
          obtain rfl := Option.some.inj hstep
          have hphase : (Config.mk c.state.clearGray rest).state.gc.phase = .pause := hpause
          rw [collectStep_of_pause hphase]
          exact h.modes.nameMarked_markRoots
        · obtain rfl := Option.some.inj hstep
          exact h.collectStep_marked
      · split at hstep <;> obtain rfl := Option.some.inj hstep
        · exact h.marked
        · exact h.collectStep_marked
      · contradiction
  | finalize =>
      simp only [Config.step] at hstep
      split at hstep
      · obtain rfl := Option.some.inj hstep
        refine h.marked.congr ?_
        rw [(startFinalizer_guarded h.cycle.guarded _).2.1]
      · contradiction
  | finalizersReturn =>
      simp only [Config.step] at hstep
      split at hstep
      · obtain rfl := Option.some.inj hstep
        exact h.marked
      · contradiction
  | finalizersRaise =>
      obtain ⟨hcolor, -, -, -⟩ := abandoned_fields c.state
      simp only [Config.step] at hstep
      generalize (((c.state.setRunningFinalizer false).setCollecting
        false).withPhase .pause).clearGray = L at *
      split at hstep
      · obtain rfl := Option.some.inj hstep
        exact h.marked.congr hcolor
      · obtain rfl := Option.some.inj hstep
        exact h.marked.congr hcolor
      · obtain rfl := Option.some.inj hstep
        exact h.marked
      · contradiction

theorem ModesInv.step (h : c.ModesInv name) {e : Event} (he : c.Attended e)
    (hstep : c.step e = some c') : c'.ModesInv name := by
  have hcov : ∀ x, e = .act x → c.state.Covered x := by
    rintro x rfl
    exact he.1
  have hcycle : c'.Cycle := h.cycle.step hcov (fun hs hf => by
    obtain ⟨⟨a, ha⟩, -⟩ := he.sweep hs
    exact (h.cycle.finalizing hf).2 a ha) hstep
  refine ⟨hcycle, ?_, h.step_marked he hstep⟩
  by_cases hs : c.sweeps e = true
  · obtain ⟨hmarked, hmodes⟩ := he.sweep hs
    exact (h.modes.sweepObjects h.cycle.guarded (h.marked hmarked) hmodes).unswept
      (step_swept hs hstep)
  · cases e with
    | act x =>
        simp only [Config.step, Option.ite_none_right_eq_some] at hstep
        obtain ⟨L', hact, rfl⟩ := Option.map_eq_some_iff.mp hstep.2
        exact h.modes.act he.2.1 he.2.2 hact
    | _ => exact h.modes.unswept (step_unswept (by simp) (Bool.eq_false_iff.mpr hs) hstep)

/--
From right weak modes on, every state of an attended run has them, and so does
the state in which any of its collections begins.
-/
theorem weakModes_coherent {c₀ : Config} (h₀ : c₀.Start)
    (hmodes : c₀.state.ModesKept name)
    (hrun : Relation.ReflTransGen AttendedStep c₀ c) : c.state.Coherent := by
  have hkeeps : ∀ {c c' : Config}, c.ModesInv name → AttendedStep c c' →
      c'.ModesInv name := by
    rintro c c' h ⟨e, he, hstep⟩
    exact h.step he hstep
  have hstart : c₀.ModesInv name := by
    refine ⟨h₀.inv.cycle, hmodes, fun ⟨a, ha⟩ => absurd ha ?_⟩
    exact h₀.inv.pause h₀.quiescent.phase a
  exact (Machine.invariant_of_path (ModesInv · name) hkeeps hstart hrun).modes.coherent

/-! ## A metatable that changes after it was set -/

/-- A main thread, a table of globals, and the strings `__mode` and `k`. -/
def modeConfig : Config where
  state :=
    { main := some 1
      current := some 1
      globals := some 2
      strings := [4, 5]
      tmNames := [none, none, none, some 4]
      heap := [(4, .string ⟨[95, 95, 109, 111, 100, 101], 2995170092⟩),
        (5, .string ⟨[107], 3993778410⟩),
        (2, .table { hash := List.replicate 8 {} }),
        (1, .thread { stack := [.table 2], top := 1 })] }

/-- Table `6`, which will be a metatable, and table `7`, both in registers. -/
def twoTables : List Event :=
  [.act (.create 6 (.table { hash := List.replicate 8 {} })),
    .act (.create 7 (.table { hash := List.replicate 8 {} })),
    .act (.setThread 1 { stack := [.table 2, .table 6, .table 7], top := 3 })]

def setThenAssign : List Event :=
  twoTables ++ [.act (.setMetatable 7 (some 6)), .act (.set 6 (.string 4) (.string 5))]

/-- The field is assigned, and the metatable is set; a collection begins. -/
def assignThenSet : List Event :=
  twoTables ++ [.act (.set 6 (.string 4) (.string 5)), .act (.setMetatable 7 (some 6)),
    .collectStep]

private theorem modeConfig_start : modeConfig.Start :=
  ⟨rfl, ⟨rfl, fun _ => rfl, rfl⟩, rfl, ⟨1, rfl, by decide⟩⟩

private theorem modeConfig_modes : modeConfig.state.ModesKept 4 := by
  have hnew : Table.tableNew 0 8 = .ok { hash := List.replicate 8 {} } := rfl
  have htables : ∀ a t, modeConfig.state.table? a = some t →
      t = { hash := List.replicate 8 {} } := by
    intro a t ht
    have hmem := Heap.mem_of_object? (table?_eq_some.mp ht)
    have hcell : a = 2 ∧ t = { hash := List.replicate 8 {} } := by
      simpa [modeConfig] using hmem
    exact hcell.2
  refine ⟨rfl, by decide, fun a t ht => ?_, fun a t m ht hm => ?_,
    fun a t ht => ?_⟩ <;> obtain rfl := htables a t ht
  · exact (readable_of_tableNew 4 hnew).1
  · have hnone : none = some m := hm
    cases hnone
  · rfl

private theorem setThenAssign_runs : (modeConfig.run setThenAssign).isSome = true := by
  decide

/--
Before a collection begins, a table with the metatable is not weak, although the
field of the metatable says so.
-/
theorem assigned_mode_is_stale :
    ∃ c₀ : Config, c₀.Start ∧ c₀.state.ModesKept 4 ∧
      ∃ c, Relation.ReflTransGen Step c₀ c ∧ c.control = [] ∧
        c.state.gc.phase = .pause ∧ ¬ c.state.Coherent := by
  refine ⟨modeConfig, modeConfig_start, modeConfig_modes,
    (modeConfig.run setThenAssign).get setThenAssign_runs,
    path_of_run (Option.some_get setThenAssign_runs).symm, by decide,
    by decide, fun hcoherent => ?_⟩
  have hstale : ∃ t, ((modeConfig.run setThenAssign).get
      setThenAssign_runs).state.table? 7 = some t ∧
      t.weakMode ≠ ((modeConfig.run setThenAssign).get
        setThenAssign_runs).state.weakModeOf t.metatable := by
    refine ⟨(((modeConfig.run setThenAssign).get setThenAssign_runs).state.table? 7).get
      (by decide), (Option.some_get _).symm, by decide⟩
  obtain ⟨t, ht, hne⟩ := hstale
  exact hne (hcoherent 7 t ht)

private theorem not_inUse_of_cells {L : State} {m : Addr}
    (h : L.heap.all (fun cell => match cell.2 with
      | .table t => t.metatable != some m
      | _ => true) = true) : ¬ L.InUse m := by
  rintro ⟨a, t, ht, hm⟩
  have hcell := List.all_eq_true.mp h (a, .table t)
    (Heap.mem_of_object? (table?_eq_some.mp ht))
  simp [hm] at hcell

private def after (c : Config) (e : Event) : Config := (c.step e).getD c

private def AllAttended : Config → List Event → Prop
  | _, [] => True
  | c, e :: rest => c.Attended e ∧ (c.step e).isSome = true ∧ AllAttended (c.after e) rest

private theorem path_of_allAttended {events : List Event} {c : Config}
    (h : AllAttended c events) :
    Relation.ReflTransGen AttendedStep c (events.foldl after c) := by
  induction events generalizing c with
  | nil => exact .refl
  | cons e rest ih =>
      obtain ⟨he, hstep, hrest⟩ := h
      obtain ⟨c', hc'⟩ := Option.isSome_iff_exists.mp hstep
      have hafter : c.after e = c' := by simp [after, hc']
      refine .head ⟨e, he, ?_⟩ (ih hrest)
      rw [hc', hafter]

private theorem assignThenSet_attended : AllAttended modeConfig assignThenSet := by
  have hnew : ∀ t : Table, Object.table { hash := List.replicate 8 {} } = .table t →
      ∃ arrayHint hashHint, Table.tableNew arrayHint hashHint = .ok t := by
    rintro t ⟨⟩
    exact ⟨0, 8, rfl⟩
  simp only [assignThenSet, twoTables, List.cons_append, List.nil_append, AllAttended,
    Attended]
  refine ⟨⟨trivial, hnew, trivial⟩, by decide, ⟨trivial, hnew, trivial⟩,
    by decide, ⟨trivial, trivial, trivial⟩, by decide,
    ⟨trivial, ⟨?_, ?_⟩, ?_⟩, by decide, ⟨?_, ?_, trivial⟩, by decide,
    ?_, by decide, trivial⟩
  · rintro s ⟨⟩
    decide
  · rintro s ⟨⟩
    decide
  · exact fun _ _ _ huse => absurd huse (not_inUse_of_cells (by decide))
  · exact fun hblack => absurd hblack (by decide)
  · rintro m ⟨⟩
    decide
  · exact fun hs => absurd hs (by decide)

theorem weakModes_coherent_assignThenSet :
    (assignThenSet.foldl after modeConfig).state.Coherent ∧
      ((assignThenSet.foldl after modeConfig).state.table? 7).map (·.weakMode) = some 1 :=
  ⟨weakModes_coherent modeConfig_start modeConfig_modes
    (path_of_allAttended assignThenSet_attended), by decide⟩

end Config

end Luatier
