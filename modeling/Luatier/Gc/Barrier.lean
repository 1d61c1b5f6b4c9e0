import Luatier.Gc.Collection
import Luatier.Gc.Incremental
import Luatier.Runtime.TableBarrier

/-!
# What the write barrier preserves

Stacks change without a barrier, so a black thread or the slot of a black open
upvalue may refer to a white object.  Whatever the program does between two
steps of the collector, every other black object refers to marked objects only,
and the thread of a black open upvalue is marked.
-/

namespace Luatier

open Tricolor

def Object.guarded : Object → Bool
  | .thread _ => false
  | .upval uv => !uv.isOpen
  | _ => true

def Object.pins : Object → List Addr
  | .upval uv => if uv.isOpen then uv.thread.toList else []
  | _ => []

namespace State

variable {L L' : State}

def guardedPointers (L : State) (a : Addr) (o : Object) : List Addr :=
  if o.guarded then L.pointers a o else o.pins

def guardedReferences (L : State) (a : Addr) : List Addr :=
  match L.object? a with
  | some o => (L.guardedPointers a o).filter L.heap.allocated
  | none => []

structure Guarded (L : State) : Prop where
  consistent : L.gc.marks.Consistent
  closed : L.gc.marks.BlackClosed L.guardedReferences
  unpainted : L.gc.marks.Unpainted L.gc.white
  allocated : ∀ a ∈ L.gc.marks.gray, L.heap.allocated a

theorem guardedPointers_subset (L : State) (a : Addr) (o : Object) :
    L.guardedPointers a o ⊆ L.pointers a o := by
  unfold guardedPointers
  split
  · exact List.Subset.refl _
  · cases o with
    | upval uv => exact List.subset_append_right _ _
    | _ => exact List.nil_subset _

theorem guardedPointers_eq (L L' : State) (a : Addr) (o : Object) :
    L'.guardedPointers a o = L.guardedPointers a o := by
  unfold guardedPointers
  by_cases hg : o.guarded = true
  · rw [if_pos hg, if_pos hg]
    cases o with
    | thread th => contradiction
    | upval uv =>
        have hopen : uv.isOpen = false := by simpa [Object.guarded] using hg
        simp only [pointers, upvalGet, hopen]
        rfl
    | _ => rfl
  · rw [if_neg hg, if_neg hg]

theorem mem_guardedReferences {a b : Addr} :
    b ∈ L.guardedReferences a ↔ ∃ o, L.object? a = some o ∧
      b ∈ L.guardedPointers a o ∧ L.heap.allocated b = true := by
  unfold guardedReferences
  cases ho : L.object? a with
  | none => simp
  | some o => simp

theorem guardedReferences_subset (L : State) (a : Addr) :
    L.guardedReferences a ⊆ L.references a := by
  intro b hb
  obtain ⟨o, ho, hp, halloc⟩ := mem_guardedReferences.mp hb
  rw [references, ho]
  exact List.mem_filter.mpr ⟨L.guardedPointers_subset a o hp, halloc⟩

theorem Guarded.congr (h : L.Guarded)
    (hrefs : ∀ a, L'.guardedReferences a ⊆ L.guardedReferences a)
    (hmarks : L'.gc.marks = L.gc.marks) (hwhite : L'.gc.white = L.gc.white)
    (halloc : L'.heap.allocated = L.heap.allocated) : L'.Guarded := by
  refine ⟨?_, fun a ha b hb => ?_, ?_, ?_⟩
  · rw [hmarks]
    exact h.consistent
  · rw [hmarks] at ha ⊢
    exact h.closed a ha b (hrefs a hb)
  · rw [hmarks, hwhite]
    exact h.unpainted
  · rw [hmarks, halloc]
    exact h.allocated

theorem guardedReferences_of_guarded {a : Addr} {o : Object} (ho : L.object? a = some o) :
    L.guardedReferences a =
      if o.guarded then L.references a else o.pins.filter L.heap.allocated := by
  simp only [guardedReferences, references, ho, guardedPointers]
  split <;> rfl

theorem SameGraph.guardedReferences (h : SameGraph L L') (a : Addr) :
    L'.guardedReferences a = L.guardedReferences a := by
  have htrace : ∀ o : Object, o.trace.guarded = o.guarded ∧ o.trace.pins = o.pins := by
    intro o
    cases o <;> exact ⟨rfl, rfl⟩
  have hobject := h.object? a
  cases ho : L.object? a with
  | none =>
      rw [ho, Option.map_none, Option.map_eq_none_iff] at hobject
      simp only [State.guardedReferences, hobject, ho]
  | some o =>
      rw [ho, Option.map_some, Option.map_eq_some_iff] at hobject
      obtain ⟨o', ho', heq⟩ := hobject
      rw [guardedReferences_of_guarded ho, guardedReferences_of_guarded ho', h.references,
        h.allocated, ← (htrace o').1, ← (htrace o').2, heq, (htrace o).1, (htrace o).2]

/-! ## Shading by barriers -/

theorem barriers_eq (L : State) (parent : Addr) (values : List TValue) :
    L.barriers parent values =
      if L.gc.marks.color parent = .black then
        L.withMarks (L.gc.marks.shadeAll
          ((values.filterMap TValue.asGc?).filter L.heap.allocated))
      else L := by
  induction values generalizing L with
  | nil =>
      simp only [barriers, List.foldl_nil, List.filterMap_nil, List.filter_nil]
      split <;> rfl
  | cons v values ih =>
      have hcons : L.barriers parent (v :: values) =
          (L.barrier parent v).barriers parent values := rfl
      rw [hcons, ih]
      by_cases hblack : L.gc.marks.color parent = .black
      · have hv : L.barrier parent v = L.withMarks (L.gc.marks.shadeAll
            (v.asGc?.toList.filter L.heap.allocated)) := by
          rw [barrier, if_pos hblack, markValue]
          cases v.asGc? with
          | none => rfl
          | some o =>
              simp only [markObject, Option.toList_some, List.filter_cons,
                List.filter_nil]
              split <;> rfl
        have hstill : (L.barrier parent v).gc.marks.color parent = .black := by
          rw [hv]
          exact Marks.black_shadeAll.mpr hblack
        rw [if_pos hstill, if_pos hblack, hv]
        have hsplit : ((v :: values).filterMap TValue.asGc?) =
            v.asGc?.toList ++ values.filterMap TValue.asGc? := by
          cases hgc : v.asGc? <;> simp [hgc]
        rw [hsplit, List.filter_append]
        simp only [withMarks, Marks.shadeAll, List.foldl_append]
      · have hv : L.barrier parent v = L := if_neg hblack
        rw [hv, if_neg hblack, if_neg hblack]

theorem Guarded.withShaded (h : L.Guarded) {l : List Addr}
    (hl : ∀ a ∈ l, L.heap.allocated a) :
    (L.withMarks (L.gc.marks.shadeAll l)).Guarded := by
  refine ⟨h.consistent.shadeAll l, h.closed.shadeAll l, h.unpainted.shadeAll l,
    fun a ha => ?_⟩
  have hgray := ((h.consistent.shadeAll l).mem_gray a).mp ha
  rcases Marks.marked_shadeAll.mp (Or.inl hgray) with (hg | hb) | hmem
  · exact h.allocated a ((h.consistent.mem_gray a).mpr hg)
  · rw [Marks.black_shadeAll.mpr hb] at hgray
    contradiction
  · exact hl a hmem

/-- What an action of the program keeps between two steps of the collector. -/
structure Preserved (L L' : State) : Prop where
  guarded : L'.Guarded
  resting : (∀ a, ¬ L.gc.marks.Marked a) → ∀ a, ¬ L'.gc.marks.Marked a
  phase : L'.gc.phase = L.gc.phase
  main : L'.main = L.main
  allocated : ∀ a, L.heap.allocated a = true → L'.heap.allocated a = true

/--
A store into one object, followed by its barriers.  Whatever the object gains
is barriered or was marked before.
-/
theorem Guarded.store (h : L.Guarded) {a : Addr} (values : List TValue)
    (hgc : L'.gc = L.gc) (hmain : L'.main = L.main)
    (halloc : L'.heap.allocated = L.heap.allocated)
    (hother : ∀ b, b ≠ a → L'.guardedReferences b ⊆ L.guardedReferences b)
    (hself : L.gc.marks.color a = .black → ∀ c ∈ L'.guardedReferences a,
      L.gc.marks.Marked c ∨ ∃ v ∈ values, v.asGc? = some c) :
    Preserved L (L'.barriers a values) := by
  rw [barriers_eq, hgc, halloc]
  have hbase : ∀ b, b ≠ a → L.gc.marks.color b = .black →
      ∀ c ∈ L'.guardedReferences b, L.gc.marks.Marked c :=
    fun b hb hblack c hc => h.closed b hblack c (hother b hb hc)
  split
  · rename_i hblack
    have hconsistent := h.consistent.shadeAll
      ((values.filterMap TValue.asGc?).filter L.heap.allocated)
    refine ⟨⟨hconsistent, fun b hb c hc => ?_, ?_, fun b hb => ?_⟩,
      fun hrest => absurd (Or.inr hblack) (hrest a), ?_, hmain, fun b hb => ?_⟩
    · refine Marks.marked_shadeAll.mpr ?_
      have hb' := Marks.black_shadeAll.mp hb
      by_cases hba : b = a
      · subst hba
        rcases hself hb' c hc with hm | ⟨v, hv, hvc⟩
        · exact Or.inl hm
        · obtain ⟨_, _, _, hac⟩ := mem_guardedReferences.mp hc
          refine Or.inr (List.mem_filter.mpr
            ⟨List.mem_filterMap.mpr ⟨v, hv, hvc⟩, ?_⟩)
          rw [← halloc]
          exact hac
      · exact Or.inl (hbase b hba hb' c hc)
    · have : L'.gc.white = L.gc.white := by rw [hgc]
      simp only [withMarks, this]
      exact h.unpainted.shadeAll _
    · have hgray := (hconsistent.mem_gray b).mp hb
      have hallocated : L.heap.allocated b := by
        rcases Marks.marked_shadeAll.mp (Or.inl hgray) with (hg | hbk) | hmem
        · exact h.allocated b ((h.consistent.mem_gray b).mpr hg)
        · rw [Marks.black_shadeAll.mpr hbk] at hgray
          contradiction
        · exact (List.mem_filter.mp hmem).2
      rw [← halloc] at hallocated
      exact hallocated
    · simp only [withMarks, hgc]
    · simp only [withMarks, halloc]
      exact hb
  · rename_i hwhite
    refine ⟨⟨?_, fun b hb c hc => ?_, ?_, ?_⟩, ?_, ?_, hmain, fun b hb => ?_⟩
    · rw [hgc]
      exact h.consistent
    · rw [hgc] at hb ⊢
      refine hbase b ?_ hb c hc
      rintro rfl
      exact hwhite hb
    · rw [hgc]
      exact h.unpainted
    · rw [hgc, halloc]
      exact h.allocated
    · rw [hgc]
      exact id
    · rw [hgc]
    · rw [halloc]
      exact hb

/-! ## The actions -/

theorem allocated_updateCell (L : State) (a : Addr) (f : Object → Object) :
    (L.updateCell a f).heap.allocated = L.heap.allocated := by
  funext b
  exact Heap.allocated_mapCells L.heap (fun b o => if b = a then f o else o) b

theorem guardedReferences_congr (hheap : L'.heap = L.heap) (a : Addr) :
    L'.guardedReferences a ⊆ L.guardedReferences a := by
  intro b hb
  obtain ⟨o, ho, hp, halloc⟩ := mem_guardedReferences.mp hb
  refine mem_guardedReferences.mpr ⟨o, ?_, ?_, ?_⟩
  · simpa only [State.object?, hheap] using ho
  · rw [guardedPointers_eq L']
    exact hp
  · rw [← hheap]
    exact halloc

theorem guardedReferences_updateCell {a b : Addr} {f : Object → Object}
    (hf : b ≠ a ∨ ∀ o, f o = o ∨ ∃ th, f o = .thread th) :
    (L.updateCell a f).guardedReferences b ⊆ L.guardedReferences b := by
  intro c hc
  obtain ⟨o, ho, hp, halloc⟩ := mem_guardedReferences.mp hc
  rw [allocated_updateCell] at halloc
  rw [guardedPointers_eq L] at hp
  refine mem_guardedReferences.mpr ⟨o, ?_, hp, halloc⟩
  rw [object?_updateCell] at ho
  split at ho
  · rename_i hb
    obtain ⟨o', ho', rfl⟩ := Option.map_eq_some_iff.mp ho
    rcases hf with hne | hf
    · exact absurd hb hne
    · rcases hf o' with heq | ⟨th, heq⟩
      · rw [heq]
        exact ho'
      · rw [heq] at hp
        exact absurd hp List.not_mem_nil
  · exact ho

theorem Guarded.storeCell (h : L.Guarded) {a : Addr} {o : Object}
    (ho : L.object? a = some o) {f : Object → Object} (values : List TValue)
    (hself : L.gc.marks.color a = .black →
      ∀ c ∈ L.guardedPointers a (f o), L.heap.allocated c = true →
        L.gc.marks.Marked c ∨ ∃ v ∈ values, v.asGc? = some c) :
    Preserved L ((L.updateCell a f).barriers a values) := by
  refine h.store values rfl rfl (L.allocated_updateCell a f)
    (fun b hb => guardedReferences_updateCell (Or.inl hb)) fun hblack c hc => ?_
  obtain ⟨o', ho', hp, halloc⟩ := mem_guardedReferences.mp hc
  rw [object?_updateCell, if_pos rfl, ho] at ho'
  obtain rfl := Option.some.inj ho'
  rw [guardedPointers_eq L] at hp
  rw [allocated_updateCell] at halloc
  exact hself hblack c hp halloc

theorem Guarded.marked_of_pointers (h : L.Guarded) {a b : Addr} {o : Object}
    (ho : L.object? a = some o) (hblack : L.gc.marks.color a = .black)
    (hb : b ∈ L.guardedPointers a o)
    (halloc : L.heap.allocated b = true) : L.gc.marks.Marked b :=
  h.closed a hblack b (mem_guardedReferences.mpr ⟨o, ho, hb, halloc⟩)

theorem Guarded.refl (h : L.Guarded) : Preserved L L :=
  ⟨h, id, rfl, rfl, fun _ => id⟩

theorem Guarded.sameHeap (h : L.Guarded) (hgc : L'.gc = L.gc)
    (hheap : L'.heap = L.heap) (hmain : L'.main = L.main) :
    Preserved L L' := by
  refine h.store [] hgc hmain (by rw [hheap])
    (fun b _ => guardedReferences_congr hheap b)
    (fun hblack c hc => ?_ : L.gc.marks.color 0 = .black → _)
  exact Or.inl (h.closed 0 hblack c (guardedReferences_congr hheap 0 hc))

theorem Guarded.link (h : L.Guarded) {a : Addr} (ha : L.fresh a = true)
    (obj : Object) : Preserved L (L.link a obj) := by
  simp only [fresh, Bool.and_eq_true, Bool.not_eq_true', List.all_eq_true] at ha
  obtain ⟨hnew, hunused⟩ := ha
  have hobject : ∀ b, b ≠ a → (L.link a obj).object? b = L.object? b := by
    intro b hb
    have hne : (b == a) = false := by simpa using hb
    simp only [State.link, State.object?, Heap.object?, List.lookup_cons, hne]
  have halloc : ∀ b, (L.link a obj).heap.allocated b = true ↔
      b = a ∨ L.heap.allocated b = true := by
    intro b
    rw [Heap.allocated_iff_mem, Heap.allocated_iff_mem]
    simp [State.link]
  have hcolor : ∀ b, (L.link a obj).gc.marks.color b =
      if b = a then .white L.gc.white else L.gc.marks.color b := by
    intro b
    simp only [State.link, Function.update_apply]
  have hmarked : ∀ b, (L.link a obj).gc.marks.Marked b ↔
      b ≠ a ∧ L.gc.marks.Marked b := by
    intro b
    unfold Marks.Marked
    rw [hcolor]
    by_cases hb : b = a
    · simp [hb]
    · simp [hb]
  have hgray : ∀ b, L.gc.marks.color b = .gray → b ≠ a := by
    rintro b hb rfl
    have := h.allocated b ((h.consistent.mem_gray b).mpr hb)
    rw [hnew] at this
    contradiction
  refine ⟨⟨⟨fun b => ?_, h.consistent.nodup⟩, fun b hb c hc => ?_, fun b hb => ?_,
    fun b hb => (halloc b).mpr (Or.inr (h.allocated b hb))⟩,
    fun hrest b hb => hrest b ((hmarked b).mp hb).2, rfl, rfl,
    fun b hb => (halloc b).mpr (Or.inr hb)⟩
  · rw [hcolor]
    refine (h.consistent.mem_gray b).trans ?_
    constructor
    · intro hb
      rw [if_neg (hgray b hb)]
      exact hb
    · intro hb
      split at hb
      · contradiction
      · exact hb
  · rw [hcolor] at hb
    split at hb
    · contradiction
    · rename_i hba
      obtain ⟨o, ho, hp, hac⟩ := mem_guardedReferences.mp hc
      rw [hobject b hba] at ho
      rw [guardedPointers_eq L] at hp
      have hca : c ≠ a := by
        rintro rfl
        have := hunused (b, o) (Heap.mem_of_object? ho)
        simp only [List.contains_eq_mem, decide_eq_false_iff_not] at this
        exact this (L.guardedPointers_subset b o hp)
      refine (hmarked c).mpr ⟨hca, h.marked_of_pointers ho hb hp ?_⟩
      exact ((halloc c).mp hac).resolve_left hca
  · rw [hcolor]
    split
    · rfl
    · rename_i hba
      exact h.unpainted b fun hm => hb ((hmarked b).mpr ⟨hba, hm⟩)

theorem pointers_barriered {t : Table} {r : Stored} (h : r.Barriered t)
    {a b : Addr} (hb : b ∈ L.pointers a (.table r.table)) :
    b ∈ L.pointers a (.table t) ∨ ∃ v ∈ r.barriers, v.asGc? = some b := by
  have hkeys : r.table.weakKeys = t.weakKeys := by
    simp only [Table.weakKeys, h.weakMode]
  have hvalues : r.table.weakValues = t.weakValues := by
    simp only [Table.weakValues, h.weakMode]
  simp only [pointers, hkeys, hvalues, h.metatable, List.mem_append,
    List.mem_flatMap] at hb ⊢
  rcases hb with (hmeta | harray) | ⟨n, hn, hb⟩
  · exact Or.inl (Or.inl (Or.inl hmeta))
  · split at harray
    · simp at harray
    · rename_i hweak
      obtain ⟨v, hv, hvb⟩ := List.mem_filterMap.mp harray
      rcases h.array v hv with hnone | hbar | hold
      · rw [hvb] at hnone
        contradiction
      · exact Or.inr ⟨v, hbar, hvb⟩
      · refine Or.inl (Or.inl (Or.inr ?_))
        rw [if_neg hweak]
        exact List.mem_filterMap.mpr ⟨v, hold, hvb⟩
  · split at hb
    · rename_i hused
      rcases List.mem_append.mp hb with hkey | hvalue
      · split at hkey
        · simp at hkey
        · rename_i hweak
          rw [Option.mem_toList] at hkey
          rcases h.key n hn hused with hnone | hbar | ⟨n₀, hn₀, hu₀, heq⟩
          · rw [hkey] at hnone
            contradiction
          · exact Or.inr ⟨_, hbar, hkey⟩
          · refine Or.inl (Or.inr ⟨n₀, hn₀, ?_⟩)
            rw [if_pos hu₀, if_neg hweak, heq, hkey]
            simp
      · split at hvalue
        · rename_i hweak
          rw [Option.mem_toList] at hvalue
          rcases h.value n hn hused with hnone | hbar | ⟨n₀, hn₀, hu₀, heq⟩
          · rw [hvalue] at hnone
            contradiction
          · exact Or.inr ⟨_, hbar, hvalue⟩
          · refine Or.inl (Or.inr ⟨n₀, hn₀, ?_⟩)
            rw [if_pos hu₀, if_pos hweak, heq, hvalue]
            simp
        · simp at hvalue
    · simp at hb

/--
What an action may do without a barrier.  A black table that ceases to be weak
refers to everything it holds from then on.
-/
def Covered (L : State) : Action → Prop
  | .setMetatable a mt => L.gc.marks.color a = .black →
      ∀ t, L.table? a = some t →
        ∀ b ∈ L.pointers a (.table { t with weakMode := L.weakModeOf mt }),
          L.heap.allocated b = true → L.gc.marks.Marked b
  | _ => True

theorem Guarded.storeTable (h : L.Guarded) {a : Addr} {t : Table}
    (ht : L.table? a = some t) {res : Except String Stored}
    (hres : ∀ r, res = .ok r → r.Barriered t) :
    Preserved L (L.storeTable a res) := by
  cases res with
  | error e => exact h.refl
  | ok r =>
      have ho := table?_eq_some.mp ht
      refine h.storeCell ho r.barriers fun hblack c hc halloc => ?_
      rcases pointers_barriered (hres r rfl) (L.guardedPointers_subset a _ hc) with
        hold | hbar
      · exact Or.inl (h.marked_of_pointers ho hblack hold halloc)
      · exact Or.inr hbar

theorem mem_tableOf {mt : Option Addr} {b : Addr} (hb : b ∈ mt.toList) :
    ∃ v ∈ tableOf mt, v.asGc? = some b := by
  rw [Option.mem_toList] at hb
  obtain rfl : mt = some b := hb
  exact ⟨.table b, by simp [tableOf], rfl⟩

theorem Guarded.setMetatable (h : L.Guarded) {a : Addr} {mt : Option Addr}
    (hcov : L.Covered (.setMetatable a mt)) {t : Table}
    (ht : L.table? a = some t) : Preserved L (L.setMetatable a mt) := by
  refine h.storeCell (table?_eq_some.mp ht) (tableOf mt)
    fun hblack c hc halloc => ?_
  have hc := L.guardedPointers_subset a _ hc
  simp only [Object.mapTable, pointers, List.append_assoc, List.mem_append] at hc
  rcases hc with hmeta | hrest
  · exact Or.inr (mem_tableOf hmeta)
  · refine Or.inl (hcov hblack t ht c ?_ halloc)
    simp only [pointers, List.append_assoc, List.mem_append]
    exact Or.inr hrest

theorem Guarded.updateUserdata (h : L.Guarded) {a : Addr} {u : Userdata}
    (hu : L.userdata? a = some u) {f : Userdata → Userdata}
    {values : List TValue}
    (hf : ∀ b ∈ L.pointers a (.userdata (f u)),
      b ∈ L.pointers a (.userdata u) ∨ ∃ v ∈ values, v.asGc? = some b) :
    Preserved L ((L.updateUserdata a f).barriers a values) := by
  have ho := userdata?_eq_some.mp hu
  refine h.storeCell ho values fun hblack c hc halloc => ?_
  rcases hf c (L.guardedPointers_subset a _ hc) with hold | hbar
  · exact Or.inl (h.marked_of_pointers ho hblack hold halloc)
  · exact Or.inr hbar

theorem Guarded.upvalSet (h : L.Guarded) {a : Addr} {uv : UpVal}
    (huv : L.upval? a = some uv) (v : TValue) :
    Preserved L (L.upvalSet a uv v) := by
  have ho := upval?_eq_some.mp huv
  unfold State.upvalSet
  by_cases hopen : uv.isOpen = true
  · simp only [hopen, if_true]
    -- the slot of an open upvalue is not guarded, nor is the thread it writes to
    cases uv.thread with
    | none =>
        exact h.store [v] rfl rfl rfl (fun b _ => List.Subset.refl _)
          fun hblack c hc => Or.inl (h.closed a hblack c hc)
    | some b =>
        let store := Object.mapThread fun th =>
          { th with stack := th.stack.set uv.stackIndex v }
        have hcell : ∀ o : Object, store o = o ∨ ∃ th, store o = .thread th := by
          intro o
          cases o with
          | thread th => exact Or.inr ⟨_, rfl⟩
          | _ => exact Or.inl rfl
        refine h.store [v] rfl rfl (L.allocated_updateCell b _)
          (fun c _ => guardedReferences_updateCell (Or.inr hcell))
          fun hblack c hc => Or.inl (h.closed a hblack c ?_)
        exact guardedReferences_updateCell (Or.inr hcell) hc
  · simp only [hopen, Bool.false_eq_true, if_false]
    refine h.storeCell ho [v] fun _ c hc _ => ?_
    have hc := L.guardedPointers_subset a _ hc
    simp only [pointers, upvalGet, Bool.false_eq_true, if_false,
      List.append_nil, Option.mem_toList] at hc
    exact Or.inr ⟨v, List.mem_singleton_self v, hc⟩

theorem Guarded.upvalClose (h : L.Guarded) {a : Addr} {uv : UpVal}
    (huv : L.upval? a = some uv) : Preserved L (L.upvalClose a uv) := by
  unfold State.upvalClose
  split
  · refine h.storeCell (upval?_eq_some.mp huv) _ fun _ c hc _ => ?_
    have hc := L.guardedPointers_subset a _ hc
    simp only [pointers, upvalGet, Bool.false_eq_true, if_false,
      List.append_nil, Option.mem_toList] at hc
    exact Or.inr ⟨_, List.mem_singleton_self _, hc⟩
  · exact h.refl

theorem Guarded.act (h : L.Guarded) {x : Action} (hcov : L.Covered x)
    (hx : L.act x = some L') : Preserved L L' := by
  cases x with
  | create a obj =>
      simp only [State.act, Option.ite_none_right_eq_some] at hx
      obtain ⟨ha, hx⟩ := hx
      obtain rfl := Option.some.inj hx
      exact h.link ha obj
  | intern a s =>
      simp only [State.act, Option.ite_none_right_eq_some] at hx
      obtain ⟨ha, hx⟩ := hx
      obtain rfl := Option.some.inj hx
      have hlink := h.link ha (.string s)
      have hstrings : Preserved (L.link a (.string s))
          { L.link a (.string s) with strings := a :: L.strings } :=
        hlink.guarded.sameHeap rfl rfl rfl
      exact ⟨hstrings.guarded, fun hrest => hstrings.resting (hlink.resting hrest),
        hlink.phase, hlink.main, hlink.allocated⟩
  | set a key value =>
      obtain ⟨t, ht, rfl⟩ := Option.map_eq_some_iff.mp hx
      exact h.storeTable ht fun r hr => Table.set_barriered hr
  | setInt a i value =>
      obtain ⟨t, ht, rfl⟩ := Option.map_eq_some_iff.mp hx
      exact h.storeTable ht fun r hr => Table.setInt_barriered hr
  | setMetatable a mt =>
      obtain ⟨t, ht, rfl⟩ := Option.map_eq_some_iff.mp hx
      exact h.setMetatable hcov ht
  | setUserdataMetatable a mt =>
      obtain ⟨u, hu, rfl⟩ := Option.map_eq_some_iff.mp hx
      refine h.updateUserdata hu fun b hb => ?_
      simp only [pointers, List.mem_append] at hb ⊢
      rcases hb with hmeta | hval
      · exact Or.inr (mem_tableOf hmeta)
      · exact Or.inl (Or.inr hval)
  | setUservalue a uv =>
      obtain ⟨u, hu, rfl⟩ := Option.map_eq_some_iff.mp hx
      refine h.updateUserdata hu fun b hb => ?_
      simp only [pointers, List.mem_append, Option.mem_toList] at hb ⊢
      rcases hb with hmeta | hval
      · exact Or.inl (Or.inl hmeta)
      · exact Or.inr ⟨uv, List.mem_singleton_self uv, hval⟩
  | setUpval a v =>
      obtain ⟨uv, huv, rfl⟩ := Option.map_eq_some_iff.mp hx
      exact h.upvalSet huv v
  | closeUpval a =>
      obtain ⟨uv, huv, rfl⟩ := Option.map_eq_some_iff.mp hx
      exact h.upvalClose huv
  | setThread a th =>
      obtain ⟨old, hold, rfl⟩ := Option.map_eq_some_iff.mp hx
      exact h.storeCell (thread?_eq_some.mp hold) [] fun _ c hc =>
        absurd hc List.not_mem_nil
  | setTypeMt i mt =>
      obtain rfl := Option.some.inj hx
      exact h.sameHeap rfl rfl rfl
  | resume a =>
      obtain ⟨th, -, rfl⟩ := Option.map_eq_some_iff.mp hx
      exact h.sameHeap rfl rfl rfl
  | cacheClosure a cl =>
      obtain ⟨p, hp, rfl⟩ := Option.map_eq_some_iff.mp hx
      have ho := proto?_eq_some.mp hp
      exact h.storeCell ho [] fun hblack c hc halloc =>
        Or.inl (h.marked_of_pointers ho hblack hc halloc)

end State

end Luatier
