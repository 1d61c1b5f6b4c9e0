import Luatier.Gc.SweepSpec

/-!
# What marking leaves alone

Marking changes the marks and the caches of prototypes; the other fields of
the collector and all that a program can look up stay as they are.
-/

namespace Luatier

open Tricolor

namespace State

variable {L L' : State}

structure OnlyMarks (L L' : State) : Prop where
  data : SameData L L'
  gc : L'.gc = { L.gc with marks := L'.gc.marks }
  main : L'.main = L.main

namespace OnlyMarks

theorem refl (L : State) : OnlyMarks L L := ⟨.refl L, rfl, rfl⟩

theorem trans {L₁ L₂ L₃ : State} (h : OnlyMarks L₁ L₂) (h' : OnlyMarks L₂ L₃) :
    OnlyMarks L₁ L₃ := by
  refine ⟨h.data.trans h'.data, ?_, h'.main.trans h.main⟩
  rw [h'.gc, h.gc]

theorem foldl {σ α : Type} (state : σ → State) {f : σ → α → σ}
    (hf : ∀ s x, OnlyMarks (state s) (state (f s x))) (l : List α) (s : σ) :
    OnlyMarks (state s) (state (l.foldl f s)) := by
  induction l generalizing s with
  | nil => exact .refl _
  | cons x l ih => exact (hf s x).trans (ih (f s x))

theorem phase (h : OnlyMarks L L') : L'.gc.phase = L.gc.phase := by
  rw [h.gc]

theorem finalize (h : OnlyMarks L L') : L'.gc.finalize = L.gc.finalize := by
  rw [h.gc]

end OnlyMarks

theorem withMarks_onlyMarks (L : State) (marks : Marks Addr) :
    OnlyMarks L (L.withMarks marks) := ⟨⟨rfl, rfl, rfl⟩, rfl, rfl⟩

theorem markObject_onlyMarks (L : State) (o : Addr) :
    OnlyMarks L (L.markObject o) := by
  unfold markObject
  split
  · exact L.withMarks_onlyMarks _
  · exact .refl L

theorem markValue_onlyMarks (L : State) (v : TValue) :
    OnlyMarks L (L.markValue v) := by
  unfold markValue
  split
  · exact L.markObject_onlyMarks _
  · exact .refl L

theorem dropWhiteCache_onlyMarks (L : State) (a : Addr) :
    OnlyMarks L (L.dropWhiteCache a) := by
  refine ⟨.of_mapCells L _ fun b o => ?_, rfl, rfl⟩
  split
  · cases o with
    | proto p =>
        simp only
        split
        · split <;> rfl
        · rfl
    | _ => rfl
  · rfl

theorem propagateOne_onlyMarks (L : State) : OnlyMarks L L.propagateOne := by
  unfold propagateOne
  cases L.gc.marks.gray with
  | nil => exact .refl L
  | cons o rest =>
      have hblack := L.withMarks_onlyMarks
        ⟨Function.update L.gc.marks.color o .black, rest⟩
      simp only
      split
      · exact hblack
      · refine (hblack.trans (dropWhiteCache_onlyMarks _ o)).trans ?_
        exact OnlyMarks.foldl id markObject_onlyMarks _ _

theorem propagateAll_onlyMarks (fuel : Nat) (L : State) :
    OnlyMarks L (L.propagateAll fuel) := by
  induction fuel generalizing L with
  | zero => exact .refl L
  | succ fuel ih =>
      rw [propagateAll]
      split
      · exact .refl L
      · exact L.propagateOne_onlyMarks.trans (ih L.propagateOne)

theorem ephemeronRound_onlyMarks (L : State) :
    OnlyMarks L L.ephemeronRound.1 := by
  have hentry (s : State × Bool) (n : TableNode) :
      OnlyMarks s.1 (ephemeronEntry s n).1 := by
    unfold ephemeronEntry
    repeat' split
    · exact .refl _
    · exact .refl _
    · exact .refl _
    · exact s.1.markValue_onlyMarks n.value
  have htable (s : State × Bool) (cell : Addr × Object) :
      OnlyMarks s.1 (ephemeronTable s cell).1 := by
    unfold ephemeronTable
    split
    · split
      · exact OnlyMarks.foldl Prod.fst hentry _ s
      · exact .refl _
    · exact .refl _
  exact OnlyMarks.foldl Prod.fst htable L.heap (L, false)

theorem convergeEphemerons_onlyMarks (L : State) :
    OnlyMarks L L.convergeEphemerons := by
  have hrounds (fuel : Nat) (L : State) : OnlyMarks L (L.ephemeronRounds fuel) := by
    induction fuel generalizing L with
    | zero => exact .refl L
    | succ fuel ih =>
        have hround := L.ephemeronRound_onlyMarks.trans
          (propagateAll_onlyMarks L.heap.length L.ephemeronRound.1)
        rw [ephemeronRounds]
        split
        · exact hround.trans (ih _)
        · exact hround
  exact hrounds (L.heap.length + 1) L

theorem resurrect_onlyMarks (L : State) (a : Addr) :
    OnlyMarks L (L.resurrect a) := by
  unfold resurrect
  split
  · exact L.withMarks_onlyMarks _
  · exact .refl L

theorem atomicMark_onlyMarks (L : State) (pending : List Addr) :
    OnlyMarks (L.clearWeakTables 2) (L.atomicMark pending) := by
  have hpending := OnlyMarks.foldl id resurrect_onlyMarks pending
    (L.clearWeakTables 2).convergeEphemerons
  exact (((L.clearWeakTables 2).convergeEphemerons_onlyMarks.trans
    hpending).trans (propagateAll_onlyMarks _ _)).trans
    (convergeEphemerons_onlyMarks _)

end State

/-! ## What only a sweep or a store changes -/

/-- An object as far as lookups in its table, but not the metamethod cache, show it. -/
def Object.lasting : Object → Object
  | .string s => .string s
  | .table t => .table { t with optFlags := 0 }
  | .proto _ => .proto {}
  | .closure _ => .closure {}
  | .upval _ => .upval {}
  | .userdata _ => .userdata {}
  | .thread _ => .thread {}

namespace State

variable {L L' : State}

structure Unswept (L L' : State) : Prop where
  main : L'.main = L.main
  tmNames : L'.tmNames = L.tmNames
  cells : ∀ a, (L'.object? a).map Object.lasting = (L.object? a).map Object.lasting

namespace Unswept

theorem refl (L : State) : Unswept L L := ⟨rfl, rfl, fun _ => rfl⟩

theorem trans {L₁ L₂ L₃ : State} (h : Unswept L₁ L₂) (h' : Unswept L₂ L₃) :
    Unswept L₁ L₃ :=
  ⟨h'.main.trans h.main, h'.tmNames.trans h.tmNames,
    fun a => (h'.cells a).trans (h.cells a)⟩

theorem of_heap (hmain : L'.main = L.main) (htm : L'.tmNames = L.tmNames)
    (hheap : L'.heap = L.heap) : Unswept L L' := by
  refine ⟨hmain, htm, fun a => ?_⟩
  simp only [State.object?, hheap]

theorem updateCell {a : Addr} {f : Object → Object}
    (hf : ∀ o, L.object? a = some o → (f o).lasting = o.lasting) :
    Unswept L (L.updateCell a f) := by
  refine ⟨rfl, rfl, fun b => ?_⟩
  simp only [State.updateCell, State.object?, Heap.object?_update]
  by_cases hb : b = a
  · subst hb
    simp only [if_true]
    cases ho : L.heap.object? b with
    | none => rfl
    | some o => simp [hf o ho]
  · simp only [hb, if_false]

theorem allocated (h : Unswept L L') : L'.heap.allocated = L.heap.allocated := by
  funext a
  have hsome := congrArg Option.isSome (h.cells a)
  simp only [Option.isSome_map] at hsome
  exact hsome

theorem bind_object? {γ : Type} (h : Unswept L L') (a : Addr) {read : Object → Option γ}
    (hread : ∀ o, read o.lasting = read o) :
    (L'.object? a).bind read = (L.object? a).bind read := by
  have hlasting := congrArg (Option.bind · read) (h.cells a)
  simpa only [Option.bind_map, Function.comp_def, hread] using hlasting

theorem string? (h : Unswept L L') : L'.string? = L.string? := by
  funext a
  rw [string?_eq_bind, string?_eq_bind]
  exact h.bind_object? a fun o => by cases o <;> rfl

theorem table? (h : Unswept L L') (a : Addr) :
    (L'.table? a).map ({ · with optFlags := 0 }) =
      (L.table? a).map ({ · with optFlags := 0 }) := by
  rw [table?_eq_bind, table?_eq_bind, Option.map_bind, Option.map_bind]
  exact h.bind_object? a fun o => by cases o <;> rfl

end Unswept

theorem OnlyMarks.unswept (h : OnlyMarks L L') : Unswept L L' := by
  refine ⟨h.main, h.data.tmNames, fun a => ?_⟩
  have hdata : ∀ o : Object, o.lasting = o.data.lasting := by
    intro o
    cases o <;> rfl
  have hmap : ∀ o : Option Object, o.map Object.lasting =
      (o.map Object.data).map Object.lasting := by
    intro o
    cases o with
    | none => rfl
    | some o => exact congrArg some (hdata o)
  rw [hmap (L'.object? a), hmap (L.object? a), h.data.cells]

theorem getTm_unswept (L : State) (mt : Option Addr) (e : TmEvent) :
    Unswept L (L.getTm mt e).2 := by
  rcases L.getTm_state mt e with h | ⟨a, -, -, h⟩
  · rw [h]
    exact .refl L
  · rw [h]
    refine .updateCell fun o _ => ?_
    cases o <;> rfl

end State

end Luatier
