import Luatier.Gc.Reachability

/-!
# What survives a collection

Each phase of a collection is matched with an operation on the marks, and the
survivors of a collection are shown to be the kept objects.
-/

namespace Luatier

open Tricolor

def Object.data : Object → Object
  | .proto _ => .proto {}
  | .closure _ => .closure {}
  | .upval _ => .upval {}
  | .thread _ => .thread {}
  | o => o

namespace State

variable {L L' : State}

/-! ## Objects with a finalizer -/

structure SameData (L L' : State) : Prop where
  heap : L'.heap.mapCells (fun _ => Object.data) =
    L.heap.mapCells fun _ => Object.data
  tmNames : L'.tmNames = L.tmNames
  finalized : L'.gc.finalized = L.gc.finalized

namespace SameData

theorem refl (L : State) : SameData L L := ⟨rfl, rfl, rfl⟩

theorem trans {L₁ L₂ L₃ : State} (h : SameData L₁ L₂) (h' : SameData L₂ L₃) :
    SameData L₁ L₃ :=
  ⟨h'.heap.trans h.heap, h'.tmNames.trans h.tmNames,
    h'.finalized.trans h.finalized⟩

theorem of_mapCells (L : State) (f : Addr → Object → Object)
    (hf : ∀ a o, (f a o).data = o.data) :
    SameData L { L with heap := L.heap.mapCells f } := by
  refine ⟨?_, rfl, rfl⟩
  simp only [Heap.mapCells, List.map_map, Function.comp_def, hf]

theorem cells (h : SameData L L') (a : Addr) :
    (L'.object? a).map Object.data = (L.object? a).map Object.data := by
  have := congrArg (Heap.object? · a) h.heap
  simpa only [Heap.object?_mapCells, State.object?] using this

theorem bind_object? {γ : Type} (h : SameData L L') (a : Addr) {read : Object → Option γ}
    (hread : ∀ o, read o.data = read o) :
    (L'.object? a).bind read = (L.object? a).bind read := by
  have hdata := congrArg (Option.bind · read) (h.cells a)
  simpa only [Option.bind_map, Function.comp_def, hread] using hdata

theorem table? (h : SameData L L') (a : Addr) : L'.table? a = L.table? a := by
  rw [table?_eq_bind, table?_eq_bind]
  exact h.bind_object? a fun o => by cases o <;> rfl

theorem userdata? (h : SameData L L') (a : Addr) :
    L'.userdata? a = L.userdata? a := by
  rw [userdata?_eq_bind, userdata?_eq_bind]
  exact h.bind_object? a fun o => by cases o <;> rfl

theorem interned (h : SameData L L') : L'.interned = L.interned := by
  have hstring : L'.string? = L.string? := by
    funext a
    rw [string?_eq_bind, string?_eq_bind]
    exact h.bind_object? a fun o => by cases o <;> rfl
  simp only [State.interned, hstring]

theorem objectHasGc (h : SameData L L') (a : Addr) (o : Object) :
    (L'.objectHasGc a o).1 = (L.objectHasGc a o).1 := by
  have htm : ∀ mt e, (L'.getTm mt e).1 = (L.getTm mt e).1 := by
    intro mt e
    have htable : L'.table? = L.table? := funext h.table?
    unfold getTm
    rw [htable]
    cases mt.bind fun a => (L.table? a).map (a, ·) with
    | none => rfl
    | some p =>
        simp only [h.tmNames, h.interned]
        split
        · rfl
        · cases L.tmNames.getD e.ctorIdx none with
          | none => rfl
          | some name =>
              simp only
              split <;> rfl
  unfold State.objectHasGc
  rw [h.finalized]
  split
  · rfl
  · cases o with
    | table t => simp only [getMetamethod, getMetatable, htm, h.table?]
    | userdata u => simp only [getMetamethod, getMetatable, htm, h.userdata?]
    | _ => rfl

end SameData

theorem objectHasGc_of_data (L : State) (a : Addr) {o o' : Object}
    (h : o'.data = o.data) : (L.objectHasGc a o').1 = (L.objectHasGc a o).1 := by
  unfold objectHasGc
  split
  · rfl
  · cases o <;> cases o' <;> simp_all [Object.data]

theorem SameData.hasFinalizer (h : SameData L L') (a : Addr) :
    L'.HasFinalizer a ↔ L.HasFinalizer a := by
  have hcell : ∀ {L₁ L₂ : State}, SameData L₁ L₂ → L₁.HasFinalizer a →
      ∃ o, (a, o) ∈ L₂.heap ∧ (L₁.objectHasGc a o).1 = true := by
    rintro L₁ L₂ h ⟨o, hmem, hgc⟩
    have hdata : (a, o.data) ∈ L₁.heap.mapCells fun _ => Object.data :=
      List.mem_map.mpr ⟨(a, o), hmem, rfl⟩
    rw [← h.heap] at hdata
    obtain ⟨⟨b, o'⟩, hmem', heq⟩ := List.mem_map.mp hdata
    obtain ⟨rfl, hdata'⟩ := Prod.mk.inj heq
    exact ⟨o', hmem', (L₁.objectHasGc_of_data b hdata').trans hgc⟩
  constructor
  · intro hL'
    obtain ⟨o, hmem, hgc⟩ := hcell ⟨h.heap.symm, h.tmNames.symm,
      h.finalized.symm⟩ hL'
    exact ⟨o, hmem, (h.objectHasGc a o).symm.trans hgc⟩
  · intro hL
    obtain ⟨o, hmem, hgc⟩ := hcell h hL
    exact ⟨o, hmem, (h.objectHasGc a o).trans hgc⟩

theorem object?_updateTable (L : State) (a b : Addr) (f : Table → Table) :
    (L.updateTable a f).object? b =
      if b = a then (L.object? b).map (Object.mapTable f) else L.object? b :=
  Heap.object?_update L.heap (Object.mapTable f) a b

theorem table?_updateTable (L : State) (a b : Addr) (f : Table → Table) :
    (L.updateTable a f).table? b =
      (L.table? b).map fun t => if b = a then f t else t := by
  simp only [table?, object?_updateTable]
  by_cases hb : b = a
  · simp only [hb, if_true]
    cases L.object? a with
    | none => rfl
    | some o => cases o <;> rfl
  · simp only [hb, if_false]
    cases L.object? b with
    | none => rfl
    | some o => cases o <;> rfl

theorem userdata?_updateTable (L : State) (a b : Addr) (f : Table → Table) :
    (L.updateTable a f).userdata? b = L.userdata? b := by
  simp only [userdata?, object?_updateTable]
  by_cases hb : b = a
  · simp only [hb, if_true]
    cases L.object? a with
    | none => rfl
    | some o => cases o <;> rfl
  · simp only [hb, if_false]

theorem interned_updateTable (L : State) (a : Addr) (f : Table → Table) :
    (L.updateTable a f).interned = L.interned := by
  have hstring : (L.updateTable a f).string? = L.string? := by
    funext b
    simp only [string?, object?_updateTable]
    by_cases hb : b = a
    · simp only [hb, if_true]
      cases L.object? a with
      | none => rfl
      | some o => cases o <;> rfl
    · simp only [hb, if_false]
  simp only [interned, hstring]

theorem getTm_state (L : State) (mt : Option Addr) (e : TmEvent) :
    (L.getTm mt e).2 = L ∨ ∃ a, mt = some a ∧ (L.getTm mt e).1 = .nil ∧
      (L.getTm mt e).2 = L.updateTable a (·.markNoTm e) := by
  unfold getTm
  cases h : mt.bind fun a => (L.table? a).map (a, ·) with
  | none => exact Or.inl rfl
  | some p =>
      obtain ⟨a, hmt, hp⟩ := Option.bind_eq_some_iff.mp h
      obtain ⟨t, -, rfl⟩ := Option.map_eq_some_iff.mp hp
      simp only
      by_cases hno : t.noTm e = true
      · exact Or.inl (by rw [if_pos hno])
      · rw [if_neg hno]
        cases L.tmNames.getD e.ctorIdx none with
        | none => exact Or.inl rfl
        | some name =>
            by_cases hnil : (t.get L.interned (.string name)).isNil = true
            · simp only [hnil, if_true]
              exact Or.inr ⟨a, hmt, trivial, rfl⟩
            · simp only [hnil]
              exact Or.inl rfl

theorem noTm_markNoTm (t : Table) : (t.markNoTm .gc).noTm .gc = true := by
  have hbit : (t.optFlags ||| Table.tmBit .gc) &&& Table.tmBit .gc =
      Table.tmBit .gc := by
    apply UInt32.toBitVec_inj.mp
    ext i hi
    simp only [UInt32.toBitVec_and, UInt32.toBitVec_or, BitVec.getElem_and,
      BitVec.getElem_or]
    cases (Table.tmBit .gc).toBitVec[i] <;> simp
  simp only [Table.noTm, Table.markNoTm, hbit]
  rfl

theorem getTm_getTm (L : State) (mt mt' : Option Addr) :
    ((L.getTm mt .gc).2.getTm mt' .gc).1 = (L.getTm mt' .gc).1 := by
  rcases L.getTm_state mt .gc with h | ⟨a, rfl, hnil, h⟩
  · rw [h]
  rw [h]
  by_cases hmt : mt' = some a
  · -- the flag answers what the table would have answered
    subst hmt
    rw [hnil]
    unfold getTm
    simp only [Option.bind_some, table?_updateTable, if_true, Option.map_map]
    cases L.table? a with
    | none => rfl
    | some t => simp [noTm_markNoTm]
  · have htable : (mt'.bind fun b => ((L.updateTable a (·.markNoTm .gc)).table? b).map
        (b, ·)) = mt'.bind fun b => (L.table? b).map (b, ·) := by
      cases mt' with
      | none => rfl
      | some b =>
          have hb : b ≠ a := fun hb => hmt (by rw [hb])
          simp only [Option.bind_some, table?_updateTable, hb, if_false,
            Option.map_id']
    unfold getTm
    rw [htable, interned_updateTable]
    cases mt'.bind fun b => (L.table? b).map (b, ·) with
    | none => rfl
    | some p =>
        simp only
        split
        · rfl
        · cases h : L.tmNames.getD TmEvent.gc.ctorIdx none with
          | none =>
              have : (L.updateTable a (·.markNoTm .gc)).tmNames.getD
                TmEvent.gc.ctorIdx none = none := h
              simp only [this]
          | some name =>
              have : (L.updateTable a (·.markNoTm .gc)).tmNames.getD
                TmEvent.gc.ctorIdx none = some name := h
              simp only [this]
              split <;> rfl

theorem getMetatable_getTm (L : State) (mt : Option Addr) (v : TValue) :
    (L.getTm mt .gc).2.getMetatable v = L.getMetatable v := by
  rcases L.getTm_state mt .gc with h | ⟨a, rfl, -, h⟩
  · rw [h]
  rw [h]
  cases v with
  | table b =>
      simp only [getMetatable, table?_updateTable]
      cases L.table? b with
      | none => rfl
      | some t =>
          simp only [Option.map_some, Option.bind_some]
          split <;> rfl
  | userdata b => simp only [getMetatable, userdata?_updateTable]
  | _ => rfl

theorem objectHasGc_getTm (L : State) (mt : Option Addr) (b : Addr) (o : Object) :
    ((L.getTm mt .gc).2.objectHasGc b o).1 = (L.objectHasGc b o).1 := by
  have hfinalized : (L.getTm mt .gc).2.gc = L.gc := by
    rcases L.getTm_state mt .gc with h | ⟨a, -, -, h⟩
    · rw [h]
    · rw [h]
      rfl
  unfold objectHasGc
  rw [hfinalized]
  split
  · rfl
  · cases o with
    | table t => simp only [getMetamethod, getMetatable_getTm, getTm_getTm]
    | userdata u => simp only [getMetamethod, getMetatable_getTm, getTm_getTm]
    | _ => rfl

theorem objectHasGc_state (L : State) (a : Addr) (o : Object) :
    (L.objectHasGc a o).2 = L ∨
      ∃ mt, (L.objectHasGc a o).2 = (L.getTm mt .gc).2 := by
  unfold objectHasGc
  split
  · exact Or.inl rfl
  · cases o with
    | table t => exact Or.inr ⟨_, rfl⟩
    | userdata u => exact Or.inr ⟨_, rfl⟩
    | _ => exact Or.inl rfl

theorem getTm_sameGraph (L : State) (mt : Option Addr) (e : TmEvent) :
    SameGraph L (L.getTm mt e).2 ∧ (L.getTm mt e).2.gc = L.gc := by
  rcases L.getTm_state mt e with h | ⟨a, -, -, h⟩
  · rw [h]
    exact ⟨.refl L, rfl⟩
  · rw [h]
    refine ⟨mapCells_sameGraph L _ fun b o => ?_, rfl⟩
    split
    · cases o with
      | table t => rfl
      | _ => rfl
    · rfl

theorem objectHasGc_sameGraph (L : State) (a : Addr) (o : Object) :
    SameGraph L (L.objectHasGc a o).2 ∧ (L.objectHasGc a o).2.gc = L.gc := by
  rcases L.objectHasGc_state a o with h | ⟨mt, h⟩
  · rw [h]
    exact ⟨.refl L, rfl⟩
  · rw [h]
    exact L.getTm_sameGraph mt .gc

theorem objectHasGc_objectHasGc (L : State) (a b : Addr) (o o' : Object) :
    ((L.objectHasGc a o).2.objectHasGc b o').1 = (L.objectHasGc b o').1 := by
  rcases L.objectHasGc_state a o with h | ⟨mt, h⟩
  · rw [h]
  · rw [h, objectHasGc_getTm]

theorem separate_eq (L : State) (cells : List (Addr × Object)) :
    (L.separate cells).1 = (cells.filter fun cell =>
        L.isWhite cell.1 && (L.objectHasGc cell.1 cell.2).1).map Prod.fst ∧
      SameGraph L (L.separate cells).2 ∧ (L.separate cells).2.gc = L.gc := by
  induction cells generalizing L with
  | nil => exact ⟨rfl, .refl L, rfl⟩
  | cons cell cells ih =>
      obtain ⟨a, o⟩ := cell
      rw [separate]
      by_cases hwhite : L.isWhite a = true
      · obtain ⟨hgraph, hgc⟩ := L.objectHasGc_sameGraph a o
        obtain ⟨hlist, hgraph', hgc'⟩ := ih (L.objectHasGc a o).2
        have hisWhite : (L.objectHasGc a o).2.isWhite = L.isWhite := by
          funext b
          simp only [isWhite, hgc]
        simp only [hwhite, if_true]
        refine ⟨?_, hgraph.trans hgraph', hgc'.trans hgc⟩
        rw [hlist]
        simp only [hisWhite, objectHasGc_objectHasGc, List.filter_cons, hwhite,
          Bool.true_and]
        split <;> rfl
      · obtain ⟨hlist, hrest⟩ := ih L
        simp only [hwhite]
        refine ⟨?_, hrest⟩
        have hcell : ¬ (L.isWhite a && (L.objectHasGc a o).1) = true := by
          simp [hwhite]
        rw [List.filter_cons, if_neg hcell]
        exact hlist

/-! ## Clearing weak values -/

theorem mask_two (w : UInt8) : w &&& 2 &&& 1 = 0 ∧ w &&& 2 &&& 2 = w &&& 2 := by
  constructor
  · rw [UInt8.and_assoc]
    exact UInt8.and_zero
  · rw [UInt8.and_assoc]
    rfl

theorem mask_one (w : UInt8) : w &&& 1 &&& 2 = 0 ∧ w &&& 1 &&& 1 = w &&& 1 := by
  constructor
  · rw [UInt8.and_assoc]
    exact UInt8.and_zero
  · rw [UInt8.and_assoc]
    rfl

theorem clearWeakTables_two_sameGraph (L : State) :
    SameGraph L (L.clearWeakTables 2) := by
  refine mapCells_sameGraph L _ fun a o => ?_
  cases o with
  | table t =>
      simp only [Object.mapTable]
      split
      · obtain ⟨hkeys, hvalues⟩ := mask_two t.weakMode
        by_cases hv : t.weakValues = true
        · have hv' : (t.weakMode &&& 2 != 0) = true := hv
          simp only [Object.trace, Table.trace, Table.clearWeakEntries, hkeys, hvalues, hv',
            Table.weakValues, bne_self_eq_false, Bool.false_and,
            Bool.true_and, Bool.false_eq_true, if_false, if_true, List.map_map]
          congr 3
          funext n
          simp only [Function.comp_apply]
          split <;> rfl
        · have hv' : (t.weakMode &&& 2 != 0) = false := Bool.eq_false_iff.mpr hv
          simp only [Object.trace, Table.trace, Table.clearWeakEntries, hkeys, hvalues, hv',
            bne_self_eq_false, Bool.false_and, Bool.false_eq_true, if_false,
            List.map_id', ite_self]
      · rfl
  | _ => rfl

/-! ## The atomic marking -/

theorem foldl_resurrect {L : State} (pending : List Addr)
    (hwhite : L.gc.marks.Unpainted L.gc.white) :
    pending.foldl resurrect L =
      L.withMarks (L.gc.marks.shadeAll pending) := by
  induction pending generalizing L with
  | nil => rfl
  | cons a pending ih =>
      have ha : L.resurrect a = L.withMarks (L.gc.marks.shade a) := by
        unfold resurrect
        by_cases h : L.gc.marks.Marked a
        · have hw : ¬ L.isWhite a = true := by
            simpa [isWhite] using fun hc => (hwhite.isWhite_iff a).mp hc h
          rw [if_neg hw, Marks.shade_of_marked h]
          rfl
        · rw [if_pos (by simpa [isWhite] using hwhite a h)]
      rw [List.foldl_cons, ha, ih]
      · rfl
      · exact hwhite.shade a

/--
What holds of the marks from the roots to the sweep. The references of a black object
need not all have been followed: `edges` has those that have been, and those ahead.
-/
structure MarkingAlong (edges : Addr → List Addr) (L : State) : Prop where
  consistent : L.gc.marks.Consistent
  blackClosed : L.gc.marks.BlackClosed edges
  unpainted : L.gc.marks.Unpainted L.gc.white
  allocated : ∀ a ∈ L.gc.marks.gray, L.heap.allocated a
  ahead : ∀ a, L.gc.marks.color a ≠ .black → L.references a = edges a
  targets : ∀ a, edges a ⊆ L.references a

structure SettledAlong (edges : Addr → List Addr) (L : State) : Prop
    extends MarkingAlong edges L where
  gray : L.gc.marks.gray = []

structure Marking (L : State) : Prop where
  consistent : L.gc.marks.Consistent
  blackClosed : L.gc.marks.BlackClosed L.references
  unpainted : L.gc.marks.Unpainted L.gc.white
  allocated : ∀ a ∈ L.gc.marks.gray, L.heap.allocated a

structure Settled (L : State) : Prop extends Marking L where
  gray : L.gc.marks.gray = []

theorem Marking.along (h : L.Marking) : MarkingAlong L.references L :=
  ⟨h.consistent, h.blackClosed, h.unpainted, h.allocated, fun _ _ => rfl,
    fun _ => List.Subset.refl _⟩

/-- The marks and the worklist agree, whatever the black objects refer to by now. -/
structure Painted (L : State) : Prop where
  consistent : L.gc.marks.Consistent
  unpainted : L.gc.marks.Unpainted L.gc.white
  allocated : ∀ a ∈ L.gc.marks.gray, L.heap.allocated a

def unscanned (L : State) (a : Addr) : List Addr :=
  if L.gc.marks.color a = .black then [] else L.references a

theorem Painted.along (h : L.Painted) : MarkingAlong L.unscanned L := by
  refine ⟨h.consistent, fun a ha b hb => ?_, h.unpainted, h.allocated,
    fun a ha => (if_neg ha).symm, fun a => ?_⟩
  · rw [unscanned, if_pos ha] at hb
    contradiction
  · unfold unscanned
    split
    · exact List.nil_subset _
    · exact List.Subset.refl _

theorem SettledAlong.settled {edges : Addr → List Addr} (h : SettledAlong edges L)
    (hedges : edges = L.references) : L.Settled :=
  ⟨⟨h.consistent, hedges ▸ h.blackClosed, h.unpainted, h.allocated⟩, h.gray⟩

theorem references_allocated {L : State} {a b : Addr}
    (h : b ∈ L.references a) : b ∈ L.heap.map Prod.fst := by
  unfold references at h
  cases ho : L.object? a with
  | none => simp [ho] at h
  | some o =>
      rw [ho] at h
      exact (Heap.allocated_iff_mem _ _).mp (List.mem_filter.mp h).2

theorem ephemerons_allocated {L : State} {j : Addr × Addr × Addr}
    (h : j ∈ L.ephemerons) : j.2.2 ∈ L.heap.map Prod.fst := by
  obtain ⟨cell, -, hj⟩ := List.mem_flatMap.mp h
  unfold cellEphemerons at hj
  split at hj
  · split at hj
    · obtain ⟨n, -, hn⟩ := List.mem_filterMap.mp hj
      unfold entryEphemeron at hn
      split at hn
      · obtain ⟨k, -, hk⟩ := Option.bind_eq_some_iff.mp hn
        obtain ⟨v, hv, rfl⟩ := Option.map_eq_some_iff.mp hk
        exact (Heap.allocated_iff_mem _ _).mp (Option.filter_eq_some_iff.mp hv).2
      · contradiction
    · simp at hj
  · simp at hj

theorem pending_le (L : State) :
    L.gc.marks.pending (L.heap.map Prod.fst) ≤ L.heap.length := by
  simpa [Marks.pending] using List.countP_le_length
    (p := fun a => decide (L.gc.marks.color a ≠ .black))
    (l := L.heap.map Prod.fst)

section Along

variable {edges : Addr → List Addr}

theorem MarkingAlong.gray_mem (h : MarkingAlong edges L) :
    ∀ a ∈ L.gc.marks.gray, a ∈ L.heap.map Prod.fst :=
  fun a ha => (Heap.allocated_iff_mem _ _).mp (h.allocated a ha)

theorem MarkingAlong.edges_mem (h : MarkingAlong edges L) :
    ∀ a, ∀ b ∈ edges a, b ∈ L.heap.map Prod.fst :=
  fun a _ hb => references_allocated (h.targets a hb)

theorem MarkingAlong.settled (h : MarkingAlong edges L) (hgraph : SameGraph L L')
    (hconsistent : L'.gc.marks.Consistent) (hclosed : L'.gc.marks.BlackClosed edges)
    (hgray : L'.gc.marks.gray = [])
    (hmono : ∀ a, L.gc.marks.Marked a → L'.gc.marks.Marked a)
    (hcolor : ∀ a, ¬ L'.gc.marks.Marked a →
      L'.gc.marks.color a = L.gc.marks.color a) : SettledAlong edges L' := by
  refine ⟨⟨hconsistent, hclosed, fun a ha => ?_, by simp [hgray], fun a ha => ?_,
    fun a => ?_⟩, hgray⟩
  · rw [hgraph.white, hcolor a ha]
    exact h.unpainted a fun hm => ha (hmono a hm)
  · rw [hgraph.references]
    refine h.ahead a fun hblack => ?_
    rcases hmono a (Or.inr hblack) with hg | hb
    · have hmem := (hconsistent.mem_gray a).mpr hg
      rw [hgray] at hmem
      exact List.not_mem_nil hmem
    · exact ha hb
  · rw [hgraph.references]
    exact h.targets a

theorem MarkingAlong.sameGraph (h : MarkingAlong edges L) (hgraph : SameGraph L L')
    (hm : L'.gc.marks = L.gc.marks) : MarkingAlong edges L' := by
  refine ⟨?_, ?_, ?_, ?_, ?_, ?_⟩
  · rw [hm]
    exact h.consistent
  · rw [hm]
    exact h.blackClosed
  · rw [hm, hgraph.white]
    exact h.unpainted
  · rw [hm, hgraph.allocated]
    exact h.allocated
  · rw [hm, hgraph.references]
    exact h.ahead
  · rw [hgraph.references]
    exact h.targets

theorem MarkingAlong.withShaded (h : MarkingAlong edges L) {l : List Addr}
    (hl : ∀ a ∈ l, L.heap.allocated a) :
    MarkingAlong edges (L.withMarks (L.gc.marks.shadeAll l)) := by
  have hgraph := withMarks_sameGraph L (L.gc.marks.shadeAll l)
  refine ⟨h.consistent.shadeAll l, h.blackClosed.shadeAll l, h.unpainted.shadeAll l,
    fun a ha => ?_, fun a ha => ?_, fun a => ?_⟩
  · have hgray := ((h.consistent.shadeAll l).mem_gray a).mp ha
    rcases Marks.marked_shadeAll.mp (Or.inl hgray) with (hg | hb) | hmem
    · exact h.allocated a ((h.consistent.mem_gray a).mpr hg)
    · rw [Marks.black_shadeAll.mpr hb] at hgray
      contradiction
    · exact hl a hmem
  · rw [hgraph.references]
    exact h.ahead a fun hblack => ha (Marks.black_shadeAll.mpr hblack)
  · rw [hgraph.references]
    exact h.targets a

theorem propagateAll_along (h : MarkingAlong edges L) (fuel : Nat)
    (hfuel : L.heap.length ≤ fuel) :
    SameGraph L (L.propagateAll fuel) ∧ SettledAlong edges (L.propagateAll fuel) ∧
      ∀ a, (L.propagateAll fuel).gc.marks.Marked a ↔ ∃ r, L.gc.marks.Marked r ∧
        Relation.ReflTransGen (fun x y => y ∈ edges x) r a := by
  obtain ⟨hgraph, hmarks⟩ := propagateAll_scan fuel L
  rw [Marks.scanAll_congr h.consistent h.ahead] at hmarks
  have hscan := Marks.scanAll_scanned (L.heap.map Prod.fst) h.consistent
    h.blackClosed h.gray_mem h.edges_mem (Nat.le_trans L.pending_le hfuel)
  rw [← hmarks] at hscan
  exact ⟨hgraph, h.settled hgraph hscan.consistent hscan.blackClosed hscan.gray
    (fun a ha => (hscan.marked a).mpr ⟨a, ha, .refl⟩) hscan.color, hscan.marked⟩

theorem convergeEphemerons_along (h : SettledAlong edges L) :
    SameGraph L L.convergeEphemerons ∧ SettledAlong edges L.convergeEphemerons ∧
      ∀ a, L.convergeEphemerons.gc.marks.Marked a ↔
        Marks.Reached edges L.ephemerons L.gc.marks.Marked a := by
  obtain ⟨hgraph, hmarks⟩ :=
    ephemeronRounds_converge (L.heap.length + 1) h.consistent h.unpainted
  rw [Marks.converge_congr h.consistent h.ahead] at hmarks
  have hpending := L.pending_le
  have hconv : Marks.Converged edges L.ephemerons L.gc.marks
      (L.gc.marks.converge edges L.ephemerons L.heap.length
        (L.heap.length + 1)) :=
    Marks.converge_converged (L.heap.map Prod.fst) h.consistent h.blackClosed
      h.gray h.edges_mem (fun _ => ephemerons_allocated) (by simp) (by omega)
  unfold convergeEphemerons
  rw [← hmarks] at hconv
  exact ⟨hgraph, h.toMarkingAlong.settled hgraph hconv.consistent hconv.blackClosed
    hconv.gray (fun a ha => (hconv.marked a).mpr (.base ha)) hconv.color, hconv.marked⟩

theorem convergeEphemerons_closing (h : MarkingAlong edges L) :
    SameGraph L L.convergeEphemerons ∧ SettledAlong edges L.convergeEphemerons ∧
      (∀ a, L.gc.marks.Marked a → L.convergeEphemerons.gc.marks.Marked a) ∧
      ∀ a, L.convergeEphemerons.gc.marks.Marked a →
        Marks.Reached edges L.ephemerons L.gc.marks.Marked a := by
  obtain ⟨hgraph, hmarks⟩ :=
    ephemeronRounds_converge (L.heap.length + 1) h.consistent h.unpainted
  rw [Marks.converge_congr h.consistent h.ahead] at hmarks
  have hpending := L.pending_le
  have hclose : Marks.Closing edges L.ephemerons L.gc.marks
      (L.gc.marks.converge edges L.ephemerons L.heap.length
        (L.heap.length + 1)) :=
    Marks.converge_closing (L.heap.map Prod.fst) h.consistent h.blackClosed
      h.gray_mem h.edges_mem (fun _ => ephemerons_allocated) (by simp) (by omega)
  unfold convergeEphemerons
  rw [← hmarks] at hclose
  exact ⟨hgraph, h.settled hgraph hclose.consistent hclose.blackClosed hclose.gray
    hclose.mono hclose.color, hclose.mono, hclose.sound⟩

theorem atomicMark_along (h : MarkingAlong edges L) {pending : List Addr}
    (hpending : ∀ a ∈ pending, L.heap.allocated a) :
    SameGraph L (L.atomicMark pending) ∧ SettledAlong edges (L.atomicMark pending) ∧
      ∀ a, (L.atomicMark pending).gc.marks.Marked a ↔
        Marks.Reached edges L.ephemerons
          (fun b => L.gc.marks.Marked b ∨ b ∈ pending) a := by
  simp only [atomicMark]
  have hgraph₁ := L.clearWeakTables_two_sameGraph
  have hset₁ : MarkingAlong edges (L.clearWeakTables 2) := h.sameGraph hgraph₁ rfl
  obtain ⟨hgraph₂, hset₂, hmono₂, hsound₂⟩ := convergeEphemerons_closing hset₁
  have hgraph₁₂ := hgraph₁.trans hgraph₂
  generalize (L.clearWeakTables 2).convergeEphemerons = L₂
    at hset₂ hmono₂ hsound₂ hgraph₁₂ ⊢
  rw [foldl_resurrect pending hset₂.unpainted]
  have hset₃ := hset₂.toMarkingAlong.withShaded (l := pending) (by
    rw [hgraph₁₂.allocated]
    exact hpending)
  have hmarked₃ : ∀ a, (L₂.withMarks (L₂.gc.marks.shadeAll pending)).gc.marks.Marked
      a ↔ L₂.gc.marks.Marked a ∨ a ∈ pending := fun _ => Marks.marked_shadeAll
  have hgraph₁₃ := hgraph₁₂.trans
    (withMarks_sameGraph L₂ (L₂.gc.marks.shadeAll pending))
  generalize L₂.withMarks (L₂.gc.marks.shadeAll pending) = L₃
    at hset₃ hmarked₃ hgraph₁₃ ⊢
  obtain ⟨hgraph₄, hset₄, hmarked₄⟩ :=
    propagateAll_along hset₃ L₃.heap.length (Nat.le_refl _)
  have hgraph₁₄ := hgraph₁₃.trans hgraph₄
  generalize L₃.propagateAll L₃.heap.length = L₄
    at hset₄ hmarked₄ hgraph₁₄ ⊢
  obtain ⟨hgraph₅, hset₅, hmarked₅⟩ := convergeEphemerons_along hset₄
  refine ⟨hgraph₁₄.trans hgraph₅, hset₅, fun a => ?_⟩
  rw [hgraph₁.ephemerons] at hsound₂
  rw [hmarked₅, hgraph₁₄.ephemerons]
  constructor
  · refine fun ha => ha.least (fun b hb => ?_) .edge .joint
    obtain ⟨r, hr, hpath⟩ := (hmarked₄ b).mp hb
    refine Derives.of_path ?_ hpath
    rcases (hmarked₃ r).mp hr with hr | hr
    · exact (hsound₂ r hr).mono (fun _ h => .base (Or.inl h)) id id
    · exact .base (Or.inr hr)
  · refine fun ha => ha.mono (fun b hb => .base ?_) id id
    refine (hmarked₄ b).mpr ⟨b, (hmarked₃ b).mpr ?_, .refl⟩
    rcases hb with hb | hb
    · exact Or.inl (hmono₂ b hb)
    · exact Or.inr hb

end Along

end State

end Luatier
