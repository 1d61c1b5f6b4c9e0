import Luatier.Gc.Collector

/-!
# The graph that a collection walks

The references between allocated cells form a graph that most of a collection
leaves alone.  `trace` blanks out the parts of an object that do not matter to
it; steps that agree on the traces walk the same graph, and on the marks they
are the operations of tri-colour marking.
-/

namespace Luatier

open Tricolor

def Table.trace (t : Table) : Table :=
  { t with
    optFlags := 0
    array := if t.weakValues then [] else t.array
    hash := if t.weakValues then t.hash.map ({ · with value := .nil })
      else t.hash }

def Object.trace : Object → Object
  | .table t => .table t.trace
  | .proto p => .proto { p with cache := none }
  | o => o

namespace State

variable {L L' : State}

/-- The allocated cells that `propagate_one` reaches from a cell. -/
def references (L : State) (a : Addr) : List Addr :=
  match L.object? a with
  | some o => (L.pointers a o).filter L.heap.allocated
  | none => []

def entryEphemeron (allocated : Addr → Bool) (a : Addr) (n : TableNode) :
    Option (Addr × Addr × Addr) :=
  if n.used then
    n.key.asGc?.bind fun k =>
      (n.value.asGc?.filter allocated).map fun v => (a, k, v)
  else none

/-- Table, key and value of the entries that the ephemeron rounds look at. -/
def cellEphemerons (allocated : Addr → Bool) (cell : Addr × Object) :
    List (Addr × Addr × Addr) :=
  match cell.2 with
  | .table t =>
      if t.weakKeys && !t.weakValues then
        t.hash.filterMap (entryEphemeron allocated cell.1)
      else []
  | _ => []

def ephemerons (L : State) : List (Addr × Addr × Addr) :=
  L.heap.flatMap (cellEphemerons L.heap.allocated)

/--
`L'` differs from `L` in its marks and its place in the cycle, and in nothing
that the graph shows.
-/
structure SameGraph (L L' : State) : Prop where
  frame : L' = { L with
    heap := L'.heap
    gc := { L.gc with
      marks := L'.gc.marks
      phase := L'.gc.phase
      collecting := L'.gc.collecting } }
  heap : L'.heap.mapCells (fun _ => Object.trace) =
    L.heap.mapCells fun _ => Object.trace

namespace SameGraph

theorem refl (L : State) : SameGraph L L := ⟨rfl, rfl⟩

theorem trans {L₁ L₂ L₃ : State} (h : SameGraph L₁ L₂) (h' : SameGraph L₂ L₃) :
    SameGraph L₁ L₃ := by
  refine ⟨?_, h'.heap.trans h.heap⟩
  rw [h'.frame, h.frame]

theorem current (h : SameGraph L L') : L'.current = L.current := by rw [h.frame]

theorem main (h : SameGraph L L') : L'.main = L.main := by rw [h.frame]

theorem tmNames (h : SameGraph L L') : L'.tmNames = L.tmNames := by rw [h.frame]

theorem white (h : SameGraph L L') : L'.gc.white = L.gc.white := by rw [h.frame]

theorem object? (h : SameGraph L L') (a : Addr) :
    (L'.object? a).map Object.trace = (L.object? a).map Object.trace := by
  have := congrArg (Heap.object? · a) h.heap
  simpa only [Heap.object?_mapCells, State.object?] using this

theorem allocated (h : SameGraph L L') :
    L'.heap.allocated = L.heap.allocated := by
  funext a
  have := congrArg Option.isSome (h.object? a)
  simp only [Option.isSome_map] at this
  exact this

theorem length (h : SameGraph L L') : L'.heap.length = L.heap.length := by
  have := congrArg List.length h.heap
  simpa only [Heap.mapCells, List.length_map] using this

end SameGraph

theorem withMarks_sameGraph (L : State) (marks : Marks Addr) :
    SameGraph L (L.withMarks marks) := ⟨rfl, rfl⟩

theorem mapCells_sameGraph (L : State) (f : Addr → Object → Object)
    (hf : ∀ a o, (f a o).trace = o.trace) :
    SameGraph L { L with heap := L.heap.mapCells f } := by
  refine ⟨rfl, ?_⟩
  simp only [Heap.mapCells, List.map_map, Function.comp_def, hf]

/-! ## The graph depends on the traces alone -/

def traced (L : State) : State :=
  { L with heap := L.heap.mapCells fun _ => Object.trace }

theorem object?_traced (L : State) (a : Addr) :
    L.traced.object? a = (L.object? a).map Object.trace :=
  Heap.object?_mapCells L.heap (fun _ => Object.trace) a

theorem proto?_traced (L : State) (a : Addr) :
    L.traced.proto? a = (L.proto? a).map ({ · with cache := none }) := by
  simp only [proto?, object?_traced]
  cases L.object? a with
  | none => rfl
  | some o => cases o <;> rfl

theorem closure?_traced (L : State) (a : Addr) :
    L.traced.closure? a = L.closure? a := by
  simp only [closure?, object?_traced]
  cases L.object? a with
  | none => rfl
  | some o => cases o <;> rfl

theorem thread?_traced (L : State) (a : Addr) :
    L.traced.thread? a = L.thread? a := by
  simp only [thread?, object?_traced]
  cases L.object? a with
  | none => rfl
  | some o => cases o <;> rfl

theorem luaFrameHighWater_traced (L : State) (th : Thread) :
    L.traced.luaFrameHighWater th = L.luaFrameHighWater th := by
  unfold luaFrameHighWater
  congr 1
  funext limit fr
  have hproto : ∀ p : Option Addr, p.bind L.traced.proto? =
      (p.bind L.proto?).map ({ · with cache := none }) := by
    intro p
    cases p <;> simp [proto?_traced]
  have hclosure : ∀ cl : Option Addr,
      cl.bind L.traced.closure? = cl.bind L.closure? := by
    intro cl
    cases cl <;> simp [closure?_traced]
  simp only [hproto, hclosure]
  cases fr.proto.bind L.proto? with
  | some p => rfl
  | none =>
      cases fr.cl.bind L.closure? with
      | none => rfl
      | some cl =>
          simp only [Option.map_none, Option.bind_some]
          cases cl.proto.bind L.proto? <;> rfl

theorem upvalGet_traced (L : State) (uv : UpVal) :
    L.traced.upvalGet uv = L.upvalGet uv := by
  have : uv.thread.bind L.traced.thread? = uv.thread.bind L.thread? := by
    cases uv.thread <;> simp [thread?_traced]
  simp only [upvalGet, this]

theorem pointers_traced (L : State) (a : Addr) (o : Object) :
    L.traced.pointers a o.trace = L.pointers a o := by
  cases o with
  | table t =>
      by_cases hv : t.weakValues
      · have hv' : (t.weakMode &&& 2 != 0) = true := hv
        simp [pointers, Object.trace, Table.trace, Table.weakValues, Table.weakKeys, hv',
          List.flatMap_map]
      · have hv' : (t.weakMode &&& 2 != 0) = false := Bool.eq_false_iff.mpr hv
        simp [pointers, Object.trace, Table.trace, Table.weakValues, Table.weakKeys, hv']
  | upval uv => simp only [pointers, Object.trace, upvalGet_traced]
  | thread th =>
      have hlimit : L.traced.stackLimit a th = L.stackLimit a th := by
        simp only [stackLimit, luaFrameHighWater_traced]
        rfl
      simp only [pointers, Object.trace, threadStack, hlimit]
  | _ => rfl

theorem pointers_congr (hcurrent : L'.current = L.current)
    (hheap : L'.heap = L.heap) (a : Addr) (o : Object) :
    L'.pointers a o = L.pointers a o := by
  have hobject : L'.object? = L.object? := by
    funext b
    simp only [State.object?, hheap]
  have hproto : L'.proto? = L.proto? := by
    funext b
    simp only [proto?, hobject]
  have hclosure : L'.closure? = L.closure? := by
    funext b
    simp only [closure?, hobject]
  have hthread : L'.thread? = L.thread? := by
    funext b
    simp only [thread?, hobject]
  cases o <;> simp only [pointers, threadStack, stackLimit, luaFrameHighWater,
    upvalGet, hproto, hclosure, hthread, hcurrent]

namespace SameGraph

theorem pointers (h : SameGraph L L') {a : Addr} {o o' : Object}
    (ho : o'.trace = o.trace) : L'.pointers a o' = L.pointers a o := by
  have hcongr : L'.traced.pointers a o.trace = L.traced.pointers a o.trace := by
    apply pointers_congr
    · exact h.current
    · exact h.heap
  rw [← pointers_traced L' a o', ho, hcongr, pointers_traced]

theorem references (h : SameGraph L L') : L'.references = L.references := by
  funext a
  have hobj := h.object? a
  unfold State.references
  cases ho : L.object? a with
  | none =>
      rw [ho, Option.map_none, Option.map_eq_none_iff] at hobj
      rw [hobj]
  | some o =>
      rw [ho, Option.map_some, Option.map_eq_some_iff] at hobj
      obtain ⟨o', ho', htrace⟩ := hobj
      rw [ho']
      simp only [h.pointers htrace, h.allocated]

theorem ephemerons (h : SameGraph L L') : L'.ephemerons = L.ephemerons := by
  have htrace : ∀ (allocated : Addr → Bool) (cell : Addr × Object),
      cellEphemerons allocated (cell.1, cell.2.trace) =
        cellEphemerons allocated cell := by
    rintro allocated ⟨a, o⟩
    cases o with
    | table t =>
        by_cases hv : t.weakValues
        · have hv' : (t.weakMode &&& 2 != 0) = true := hv
          simp [cellEphemerons, Object.trace, Table.trace, Table.weakValues, hv']
        · have hv' : (t.weakMode &&& 2 != 0) = false := Bool.eq_false_iff.mpr hv
          simp [cellEphemerons, Object.trace, Table.trace, Table.weakValues, Table.weakKeys,
            hv']
    | _ => rfl
  have hheap : ∀ L : State, L.ephemerons =
      (L.heap.mapCells fun _ => Object.trace).flatMap
        (cellEphemerons L.heap.allocated) := by
    intro L
    simp only [State.ephemerons, Heap.mapCells, List.flatMap_map, htrace]
  rw [hheap L', hheap L, h.heap, h.allocated]

end SameGraph

/-! ## The collector's loops on the marks -/

theorem markAll_eq (L : State) (os : List Addr) : L.markAll os =
    L.withMarks (L.gc.marks.shadeAll (os.filter L.heap.allocated)) := by
  induction os generalizing L with
  | nil => rfl
  | cons o os ih =>
      rw [markAll, List.foldl_cons, ← markAll, ih]
      by_cases ho : L.heap.allocated o
      · simp only [markObject, ho, if_true, List.filter_cons]
        rfl
      · simp only [markObject, ho, Bool.false_eq_true, if_false,
          List.filter_cons]

theorem dropWhiteCache_sameGraph (L : State) (a : Addr) :
    SameGraph L (L.dropWhiteCache a) := by
  refine mapCells_sameGraph L _ fun b o => ?_
  split
  · cases o with
    | proto p =>
        simp only
        split
        · split <;> rfl
        · rfl
    | _ => rfl
  · rfl

theorem propagateOne_scan (L : State) : SameGraph L L.propagateOne ∧
    L.propagateOne.gc.marks = L.gc.marks.scan L.references := by
  unfold propagateOne Marks.scan
  cases hg : L.gc.marks.gray with
  | nil => exact ⟨.refl L, rfl⟩
  | cons o rest =>
      simp only
      generalize hL₁ : L.withMarks
        ⟨Function.update L.gc.marks.color o .black, rest⟩ = L₁
      have h₁ : SameGraph L L₁ := hL₁ ▸ withMarks_sameGraph _ _
      have hmarks : L₁.gc.marks =
          ⟨Function.update L.gc.marks.color o .black, rest⟩ := by
        rw [← hL₁]
        rfl
      have hobj : L₁.object? o = L.object? o := by
        rw [← hL₁]
        rfl
      rw [hobj]
      cases ho : L.object? o with
      | none =>
          refine ⟨h₁, ?_⟩
          simp only [references, ho, hmarks]
          rfl
      | some obj =>
          have h₂ := h₁.trans (dropWhiteCache_sameGraph L₁ o)
          simp only [markAll_eq]
          refine ⟨h₂.trans (withMarks_sameGraph _ _), ?_⟩
          simp only [references, ho, ← h₁.pointers (a := o) (rfl : obj.trace = _),
            ← h₂.allocated]
          simp only [withMarks]
          congr 1

theorem propagateOne_phase (L : State) : L.propagateOne.gc.phase = L.gc.phase := by
  unfold propagateOne
  cases L.gc.marks.gray with
  | nil => rfl
  | cons o rest =>
      simp only
      split
      · rfl
      · rw [markAll_eq]
        rfl

theorem propagateAll_scan (fuel : Nat) (L : State) :
    SameGraph L (L.propagateAll fuel) ∧
      (L.propagateAll fuel).gc.marks =
        L.gc.marks.scanAll L.references fuel := by
  induction fuel generalizing L with
  | zero => exact ⟨.refl L, rfl⟩
  | succ fuel ih =>
      rw [propagateAll, Marks.scanAll]
      split
      · exact ⟨.refl L, rfl⟩
      · obtain ⟨hgraph, hmarks⟩ := propagateOne_scan L
        obtain ⟨hgraph', hmarks'⟩ := ih L.propagateOne
        refine ⟨hgraph.trans hgraph', ?_⟩
        rw [hmarks', hmarks, hgraph.references]

/-! ## The ephemeron rounds on the marks -/

private theorem ephemeronEntry_join {s : State × Bool} {a : Addr}
    (hwhite : s.1.gc.marks.Unpainted s.1.gc.white) (ha : s.1.gc.marks.Marked a)
    (n : TableNode) :
    ephemeronEntry s n =
      let r := (entryEphemeron s.1.heap.allocated a n).elim
        (s.1.gc.marks, s.2) (Marks.join (s.1.gc.marks, s.2))
      (s.1.withMarks r.1, r.2) := by
  unfold ephemeronEntry entryEphemeron
  by_cases hused : n.used = true
  · cases hk : n.key.asGc? with
    | none =>
        simp only [hused, if_true, Option.bind_none, Option.elim_none]
        split <;> rfl
    | some k =>
        have hnil : n.key.isNil = false := by
          rw [TValue.isNil_eq_false_iff]
          intro h
          rw [h, TValue.asGc?_nil] at hk
          contradiction
        simp only [hused, hnil, if_true, Option.bind_some, Bool.not_true,
          Bool.or_false, Bool.false_eq_true, if_false]
        by_cases hkw : s.1.isWhite k = true
        · -- a white key leaves its value alone
          have hkm : ¬ s.1.gc.marks.Marked k :=
            (hwhite.isWhite_iff k).mp (by simpa [isWhite] using hkw)
          simp only [hkw, Bool.true_or, if_true]
          cases n.value.asGc?.filter s.1.heap.allocated with
          | none => rfl
          | some v =>
              simp only [Option.map_some, Option.elim_some, Marks.join, hkm,
                and_false, if_false]
              rfl
        · have hkm : s.1.gc.marks.Marked k := by
            by_contra hkm
            exact hkw (by simpa [isWhite] using hwhite k hkm)
          simp only [hkw, Bool.false_or]
          cases hv : n.value.asGc? with
          | none =>
              simp only [markValue, hv, Option.filter_none, Option.map_none,
                Option.elim_none, bne_self_eq_false, Bool.or_false]
              split <;> rfl
          | some v =>
              have hvnil : n.value.isNil = false := by
                rw [TValue.isNil_eq_false_iff]
                intro h
                rw [h, TValue.asGc?_nil] at hv
                contradiction
              simp only [hvnil, Bool.false_eq_true, if_false, markValue, hv]
              by_cases halloc : s.1.heap.allocated v = true
              · simp only [markObject, halloc, if_true, Option.filter_some,
                  Option.map_some, Option.elim_some, Marks.join, ha, hkm,
                  and_self]
                rfl
              · simp only [markObject, halloc, Bool.false_eq_true, if_false,
                  Option.filter_some, Option.map_none, Option.elim_none,
                  bne_self_eq_false, Bool.or_false]
                rfl
  · simp only [hused, Bool.not_false, Bool.true_or, if_true, if_false,
      Option.elim_none, Bool.false_eq_true]
    rfl

theorem entryEphemeron_source {allocated : Addr → Bool} {a : Addr}
    {n : TableNode} {j : Addr × Addr × Addr}
    (h : entryEphemeron allocated a n = some j) : j.1 = a := by
  unfold entryEphemeron at h
  split at h
  · obtain ⟨k, -, hk⟩ := Option.bind_eq_some_iff.mp h
    obtain ⟨v, -, rfl⟩ := Option.map_eq_some_iff.mp hk
    rfl
  · contradiction

private theorem foldl_ephemeronEntry {s : State × Bool} {a : Addr}
    (hwhite : s.1.gc.marks.Unpainted s.1.gc.white) (ha : s.1.gc.marks.Marked a)
    (nodes : List TableNode) :
    nodes.foldl ephemeronEntry s =
      let r := (nodes.filterMap (entryEphemeron s.1.heap.allocated a)).foldl
        Marks.join (s.1.gc.marks, s.2)
      (s.1.withMarks r.1, r.2) := by
  induction nodes generalizing s with
  | nil => rfl
  | cons n nodes ih =>
      rw [List.foldl_cons, ephemeronEntry_join hwhite ha]
      cases he : entryEphemeron s.1.heap.allocated a n with
      | none =>
          simp only [Option.elim_none, List.filterMap_cons, he]
          exact ih hwhite ha
      | some j =>
          simp only [Option.elim_some, List.filterMap_cons, he,
            List.foldl_cons]
          refine ih (s := (s.1.withMarks (Marks.join (s.1.gc.marks, s.2) j).1,
            (Marks.join (s.1.gc.marks, s.2) j).2))
            (Marks.Unpainted.join (s := (s.1.gc.marks, s.2)) hwhite j) ?_
          unfold Marks.join
          split
          · exact Marks.marked_shade.mpr (Or.inl ha)
          · exact ha

private theorem foldl_ephemeronTable {s : State × Bool}
    (hwhite : s.1.gc.marks.Unpainted s.1.gc.white)
    (cells : List (Addr × Object)) :
    cells.foldl ephemeronTable s =
      let r := (cells.flatMap (cellEphemerons s.1.heap.allocated)).foldl
        Marks.join (s.1.gc.marks, s.2)
      (s.1.withMarks r.1, r.2) := by
  induction cells generalizing s with
  | nil => rfl
  | cons cell cells ih =>
      have hcell : ephemeronTable s cell =
          let r := (cellEphemerons s.1.heap.allocated cell).foldl Marks.join
            (s.1.gc.marks, s.2)
          (s.1.withMarks r.1, r.2) := by
        obtain ⟨a, o⟩ := cell
        cases o with
        | table t =>
            simp only [ephemeronTable, cellEphemerons]
            by_cases hweak : (t.weakKeys && !t.weakValues) = true
            · by_cases ha : s.1.isWhite a = true
              · have hun : ¬ s.1.gc.marks.Marked a :=
                  (hwhite.isWhite_iff a).mp (by simpa [isWhite] using ha)
                simp only [hweak, ha, Bool.not_true, Bool.and_false, if_true,
                  Bool.false_eq_true, if_false]
                rw [Marks.foldl_join_of_unmarked]
                · rfl
                intro j hj
                obtain ⟨n, -, hn⟩ := List.mem_filterMap.mp hj
                rw [entryEphemeron_source hn]
                exact hun
              · have hmark : s.1.gc.marks.Marked a := by
                  by_contra hun
                  exact ha (by simpa [isWhite] using hwhite a hun)
                simp only [hweak, ha, Bool.not_false, Bool.and_true, if_true]
                exact foldl_ephemeronEntry hwhite hmark t.hash
            · simp only [hweak, Bool.false_and, Bool.false_eq_true, if_false]
              rfl
        | _ => rfl
      rw [List.foldl_cons, hcell, List.flatMap_cons, List.foldl_append]
      generalize hr : (cellEphemerons s.1.heap.allocated cell).foldl Marks.join
        (s.1.gc.marks, s.2) = r
      refine ih (s := (s.1.withMarks r.1, r.2)) ?_
      rw [← hr]
      exact Marks.Unpainted.foldl_join (s := (s.1.gc.marks, s.2)) hwhite _

theorem ephemeronRound_join {L : State}
    (hwhite : L.gc.marks.Unpainted L.gc.white) :
    L.ephemeronRound =
      let r := L.gc.marks.joinRound L.ephemerons
      (L.withMarks r.1, r.2) :=
  foldl_ephemeronTable (s := (L, false)) hwhite L.heap

theorem ephemeronRounds_converge (fuel : Nat) {L : State}
    (hm : L.gc.marks.Consistent)
    (hwhite : L.gc.marks.Unpainted L.gc.white) :
    SameGraph L (L.ephemeronRounds fuel) ∧
      (L.ephemeronRounds fuel).gc.marks =
        L.gc.marks.converge L.references L.ephemerons L.heap.length fuel := by
  induction fuel generalizing L with
  | zero => exact ⟨.refl L, rfl⟩
  | succ fuel ih =>
      rw [ephemeronRounds, Marks.converge]
      simp only [ephemeronRound_join hwhite]
      have hmr : (L.gc.marks.joinRound L.ephemerons).1.Consistent :=
        Marks.Consistent.foldl_join (s := (L.gc.marks, false)) hm _
      have hwr : (L.gc.marks.joinRound L.ephemerons).1.Unpainted L.gc.white :=
        Marks.Unpainted.foldl_join (s := (L.gc.marks, false)) hwhite _
      generalize L.gc.marks.joinRound L.ephemerons = r at hmr hwr
      have hgraph := withMarks_sameGraph L r.1
      obtain ⟨hscan, hmarks⟩ :=
        propagateAll_scan L.heap.length (L.withMarks r.1)
      rw [hgraph.references] at hmarks
      have hgraph' := hgraph.trans hscan
      cases r.2 with
      | false => exact ⟨hgraph', hmarks⟩
      | true =>
          simp only [if_true]
          obtain ⟨hrec, hrecm⟩ :=
            ih (L := (L.withMarks r.1).propagateAll L.heap.length)
              (by rw [hmarks]; exact hmr.scanAll _)
              (by rw [hmarks, hgraph'.white]; exact hwr.scanAll hmr _ _)
          refine ⟨hgraph'.trans hrec, ?_⟩
          rw [hrecm, hmarks, hgraph'.references, hgraph'.ephemerons,
            hgraph'.length]
          rfl

end State

end Luatier
