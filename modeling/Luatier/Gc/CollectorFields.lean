import Luatier.Gc.IncrementalSafety

/-!
# The fields of the collector

What the actions of the program, a sweep and the start of a finalizer change in
the collector's own fields and in the chain of objects.
-/

namespace Luatier

open Tricolor

def Action.creates : Action → Option Addr
  | .create a _ => some a
  | .intern a _ => some a
  | _ => none

namespace State

variable {L L' : State}

def AllWhite (L : State) : Prop := ∀ a, L.gc.marks.color a = .white L.gc.white

/-- The addresses of the `all_` chain. -/
def addresses (L : State) : List Addr := L.heap.map Prod.fst

theorem addresses_mapCells {f f' : Addr → Object → Object}
    (h : L'.heap.mapCells f' = L.heap.mapCells f) : L'.addresses = L.addresses := by
  have hkeys := congrArg (List.map Prod.fst) h
  simp only [Heap.mapCells, List.map_map, Function.comp_def] at hkeys
  exact hkeys

theorem addresses_updateCell (L : State) (a : Addr) (f : Object → Object) :
    (L.updateCell a f).addresses = L.addresses := by
  simp only [addresses, updateCell, Heap.update, Heap.mapCells, List.map_map,
    Function.comp_def]

theorem addresses_updateTable (L : State) (a : Addr) (f : Table → Table) :
    (L.updateTable a f).addresses = L.addresses :=
  L.addresses_updateCell a _

/-! ## Actions of the program -/

/-- What an action does to the collector, given the address that it makes. -/
structure Acted (L : State) (made : Option Addr) (L' : State) : Prop where
  addresses : L'.addresses = made.toList ++ L.addresses
  fresh : ∀ a ∈ made, a ∉ L.addresses
  finalized : L'.gc.finalized =
    made.elim L.gc.finalized (Function.update L.gc.finalized · false)
  gc : L'.gc = { L.gc with marks := L'.gc.marks, finalized := L'.gc.finalized }
  white : L.AllWhite → L'.AllWhite

theorem Acted.of_gc (haddresses : L'.addresses = L.addresses) (hgc : L'.gc = L.gc) :
    Acted L none L' := by
  refine ⟨haddresses, by simp, by rw [hgc]; rfl, by rw [hgc], fun h a => ?_⟩
  rw [hgc]
  exact h a

theorem Acted.barriers (a : Addr) (values : List TValue)
    (haddresses : L'.addresses = L.addresses) (hgc : L'.gc = L.gc) :
    Acted L none (L'.barriers a values) := by
  rw [barriers_eq]
  split
  · rename_i hblack
    refine ⟨haddresses, by simp, by rw [withMarks, hgc]; rfl, by rw [withMarks, hgc],
      fun h => ?_⟩
    rw [hgc, h a] at hblack
    contradiction
  · exact .of_gc haddresses hgc

theorem Acted.link {a : Addr} (ha : L.fresh a = true) (obj : Object) :
    Acted L (some a) (L.link a obj) := by
  refine ⟨rfl, ?_, rfl, rfl, fun h b => ?_⟩
  · rintro b ⟨⟩ hb
    have halloc := (Heap.allocated_iff_mem L.heap a).mpr hb
    simp [State.fresh, halloc] at ha
  · simp only [State.link, Function.update_apply]
    split
    · rfl
    · exact h b

theorem Acted.storeTable (a : Addr) (res : Except String Stored) :
    Acted L none (L.storeTable a res) := by
  cases res with
  | error e => exact .of_gc rfl rfl
  | ok r => exact .barriers a r.barriers (L.addresses_updateTable a _) rfl

theorem act_acted {x : Action} (hx : L.act x = some L') : Acted L x.creates L' := by
  cases x with
  | create a obj =>
      simp only [State.act, Option.ite_none_right_eq_some] at hx
      obtain rfl := Option.some.inj hx.2
      exact .link hx.1 obj
  | intern a s =>
      simp only [State.act, Option.ite_none_right_eq_some] at hx
      obtain rfl := Option.some.inj hx.2
      have hlink := Acted.link hx.1 (.string s)
      exact ⟨hlink.addresses, hlink.fresh, hlink.finalized, hlink.gc, hlink.white⟩
  | set a key value =>
      obtain ⟨t, -, rfl⟩ := Option.map_eq_some_iff.mp hx
      exact .storeTable a _
  | setInt a i value =>
      obtain ⟨t, -, rfl⟩ := Option.map_eq_some_iff.mp hx
      exact .storeTable a _
  | setMetatable a mt =>
      obtain ⟨t, -, rfl⟩ := Option.map_eq_some_iff.mp hx
      exact .barriers a _ (L.addresses_updateTable a _) rfl
  | setUserdataMetatable a mt =>
      obtain ⟨u, -, rfl⟩ := Option.map_eq_some_iff.mp hx
      exact .barriers a _ (L.addresses_updateCell a _) rfl
  | setUservalue a uv =>
      obtain ⟨u, -, rfl⟩ := Option.map_eq_some_iff.mp hx
      exact .barriers a _ (L.addresses_updateCell a _) rfl
  | setUpval a v =>
      obtain ⟨uv, -, rfl⟩ := Option.map_eq_some_iff.mp hx
      unfold upvalSet
      split
      · cases uv.thread with
        | none => exact .barriers a _ rfl rfl
        | some b => exact .barriers a _ (L.addresses_updateCell b _) rfl
      · exact .barriers a _ (L.addresses_updateCell a _) rfl
  | closeUpval a =>
      obtain ⟨uv, -, rfl⟩ := Option.map_eq_some_iff.mp hx
      unfold upvalClose
      split
      · exact .barriers a _ (L.addresses_updateCell a _) rfl
      · exact .of_gc rfl rfl
  | setThread a th =>
      obtain ⟨old, -, rfl⟩ := Option.map_eq_some_iff.mp hx
      exact .of_gc (L.addresses_updateCell a _) rfl
  | setTypeMt i mt =>
      obtain rfl := Option.some.inj hx
      exact .of_gc rfl rfl
  | resume a =>
      obtain ⟨th, -, rfl⟩ := Option.map_eq_some_iff.mp hx
      exact .of_gc rfl rfl
  | cacheClosure a cl =>
      obtain ⟨p, -, rfl⟩ := Option.map_eq_some_iff.mp hx
      exact .of_gc (L.addresses_updateCell a _) rfl

/-! ## Sweeps -/

theorem sweepMarked_addresses (L : State) : L.sweepMarked.addresses = L.addresses := by
  have hclear := addresses_mapCells L.clearDeadStacks_cleared.data.heap
  have hseparate := addresses_mapCells
    (separate_eq L.clearDeadStacks L.clearDeadStacks.heap).2.1.heap
  have hweak := addresses_mapCells (clearWeakTables_two_sameGraph
    (L.clearDeadStacks.separate L.clearDeadStacks.heap).2).heap
  have hmark := addresses_mapCells (atomicMark_onlyMarks
    (L.clearDeadStacks.separate L.clearDeadStacks.heap).2 L.sweepPending).data.heap
  exact hmark.trans (hweak.trans (hseparate.trans hclear))

theorem sweepObjects_addresses (L : State) :
    L.sweepObjects.addresses.Sublist L.addresses := by
  have hclear (M : State) (mask : UInt8) :
      (M.clearWeakTables mask).addresses = M.addresses := by
    simp only [addresses, clearWeakTables, Heap.mapCells, List.map_map, Function.comp_def]
  rw [← L.sweepMarked_addresses, sweepObjects_eq, ← hclear L.sweepMarked 2,
    ← hclear (L.sweepMarked.clearWeakTables 2) 1]
  exact List.filter_sublist.map Prod.fst

theorem sweepObjects_allWhite (L : State) : L.sweepObjects.AllWhite := fun _ => rfl

/-- A sweep queues what it separated, and changes no other field but the whites. -/
theorem sweepObjects_gc (L : State) :
    L.sweepObjects.gc = { L.gc with
      marks := L.sweepObjects.gc.marks
      white := !L.gc.white
      finalize := L.gc.finalize ++ L.sweepPending } := by
  have hgc := L.sweepMarked_gc
  have hwhite := congrArg GC.white hgc
  have hfinalize := congrArg GC.finalize hgc
  rw [sweepObjects_eq]
  generalize L.sweepMarked = M at hgc hwhite hfinalize ⊢
  generalize L.sweepPending = pending
  have hswept : ((((M.clearWeakTables 2).clearWeakTables 1).queueFinalizers
      pending).freeWhite).gc = { M.gc with
        marks := ⟨fun _ => .white (!M.gc.white), M.gc.marks.gray⟩
        white := !M.gc.white
        finalize := M.gc.finalize ++ pending } := rfl
  rw [hswept, hwhite, hfinalize, hgc]

theorem sweepPending_eq (L : State) :
    L.sweepPending = (L.clearDeadStacks.heap.filter fun cell =>
      L.clearDeadStacks.isWhite cell.1 &&
        (L.clearDeadStacks.objectHasGc cell.1 cell.2).1).map Prod.fst :=
  (separate_eq L.clearDeadStacks L.clearDeadStacks.heap).1

theorem sweepPending_nodup (h : L.addresses.Nodup) : L.sweepPending.Nodup := by
  rw [← addresses_mapCells L.clearDeadStacks_cleared.data.heap] at h
  rw [sweepPending_eq]
  exact h.sublist (List.filter_sublist.map Prod.fst)

theorem sweepPending_unfinalized {a : Addr} (ha : a ∈ L.sweepPending) :
    L.gc.finalized a = false := by
  rw [sweepPending_eq] at ha
  obtain ⟨cell, hcell, rfl⟩ := List.mem_map.mp ha
  have hhas := (Bool.and_eq_true_iff.mp (List.mem_filter.mp hcell).2).2
  by_contra hfinalized
  rw [Bool.not_eq_false, ← L.clearDeadStacks_cleared.gc] at hfinalized
  simp [objectHasGc, hfinalized] at hhas

theorem getTm_collector (L : State) (mt : Option Addr) (e : TmEvent) :
    (L.getTm mt e).2.gc = L.gc ∧ (L.getTm mt e).2.addresses = L.addresses := by
  rcases L.getTm_state mt e with h | ⟨a, -, -, h⟩
  · rw [h]
    exact ⟨rfl, rfl⟩
  · rw [h]
    exact ⟨rfl, L.addresses_updateTable a _⟩

theorem startFinalizer_gc (L : State) (a : Addr) :
    (L.startFinalizer a).gc =
      { L.gc with finalized := Function.update L.gc.finalized a true } :=
  (getTm_collector _ _ _).1

theorem startFinalizer_addresses (L : State) (a : Addr) :
    (L.startFinalizer a).addresses = L.addresses :=
  (getTm_collector _ _ _).2

theorem markRoots_onlyMarks (L : State) : OnlyMarks L L.markRoots := by
  rw [markRoots, markAll_eq]
  exact L.withMarks_onlyMarks _

end State

end Luatier
