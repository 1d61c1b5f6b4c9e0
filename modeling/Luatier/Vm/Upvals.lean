import Luatier.Gc.Mutator
import Luatier.Vm.CallSpec

/-!
# Strings and upvalues of running code

Code between two calls may intern a string, and a scope that ends closes its
upvalues.  Neither changes a register.
-/

namespace Luatier

/-! ## Interning -/

namespace State

def newAddr (L : State) : Addr := (L.heap.map Prod.fst).foldl max 0 + 1

def intern (L : State) (s : String) : Result Addr :=
  let data := s.toUTF8.toList
  let str : LjString := ⟨data, hashBytes data⟩
  match L.strings.find? fun a => L.string? a == some str with
  | some a => .ok a L
  | none =>
      if L.heap.allocated L.newAddr then .error "out of memory" L
      else .ok L.newAddr { L.link L.newAddr (.string str) with
        strings := L.newAddr :: L.strings }

variable {L L' : State}

theorem object?_link (L : State) (a b : Addr) (o : Object) :
    (L.link a o).object? b = if b = a then some o else L.object? b := by
  simp only [object?, link, Heap.object?, List.lookup_cons]
  by_cases hb : b = a
  · simp [hb]
  · have hne : (b == a) = false := by simpa using hb
    rw [hne, if_neg hb]

theorem sameCalls_link (hfree : L.object? L.newAddr = none) (str : LjString)
    (strings : List Addr) :
    SameCalls L { L.link L.newAddr (.string str) with strings } := by
  generalize hL' : ({ L.link L.newAddr (.string str) with strings } : State) = L'
  have hobject : ∀ b, L'.object? b =
      if b = L.newAddr then some (.string str) else L.object? b := by
    intro b
    rw [← hL']
    exact object?_link L L.newAddr b (.string str)
  refine ⟨by rw [← hL']; rfl, by rw [← hL']; rfl, by rw [← hL']; rfl, ?_, ?_, ?_, ?_⟩
  all_goals
    funext b
    by_cases hb : b = L.newAddr
    · simp only [thread?, proto?, closure?, upval?, hobject, if_pos hb]
      rw [hb, hfree]
    · simp only [thread?, proto?, closure?, upval?, hobject, if_neg hb]

theorem intern_sameCalls (L : State) (s : String) :
    SameCalls L (L.intern s).after := by
  unfold intern
  simp only
  split
  · exact .refl L
  split
  · exact .refl L
  · rename_i hfree
    exact sameCalls_link (by simpa [Heap.allocated, object?] using hfree) _ _

/-! ## Closing upvalues -/

def closeUpval (L : State) (u : Addr) : State :=
  match L.upval? u with
  | some uv => L.upvalClose u uv
  | none => L

def opensFrom (L : State) (a : Addr) (level : Nat) (u : Addr) : Bool :=
  match L.upval? u with
  | some uv => uv.isOpen && uv.thread == some a && level ≤ uv.stackIndex
  | none => false

/-- `close_upvals`: those of the thread from slot `level` on. -/
def closeUpvals (L : State) (a : Addr) (level : Nat) : State :=
  match L.thread? a with
  | none => L
  | some th =>
      ((th.openUpvals.filter (L.opensFrom a level)).foldl closeUpval L).updateThread a
        fun th => { th with
          openUpvals := th.openUpvals.filter fun u => !L.opensFrom a level u }

/-- The open upvalues of `L'` were open in `L`, and the rest is the same. -/
structure ClosesUpvals (L L' : State) : Prop where
  current : L'.current = L.current
  main : L'.main = L.main
  pending : L'.yieldPending = L.yieldPending
  thread? : L'.thread? = L.thread?
  proto? : L'.proto? = L.proto?
  closure? : L'.closure? = L.closure?
  opened : ∀ u uv, L'.upval? u = some uv → uv.isOpen = true → L.upval? u = some uv

namespace ClosesUpvals

variable {L₁ : State} {b : Addr}

theorem of_sameCalls (h : SameCalls L L') : ClosesUpvals L L' :=
  ⟨h.current, h.main, h.pending, h.thread?, h.proto?, h.closure?,
    fun u uv huv _ => by rwa [h.upval?] at huv⟩

theorem trans (h₁ : ClosesUpvals L L₁) (h₂ : ClosesUpvals L₁ L') :
    ClosesUpvals L L' :=
  ⟨h₂.current.trans h₁.current, h₂.main.trans h₁.main,
    h₂.pending.trans h₁.pending, h₂.thread?.trans h₁.thread?,
    h₂.proto?.trans h₁.proto?, h₂.closure?.trans h₁.closure?,
    fun u uv huv hopen => h₁.opened u uv (h₂.opened u uv huv hopen) hopen⟩

theorem captured (h : ClosesUpvals L L') {i : Nat} (hc : L'.Captured b i) :
    L.Captured b i := by
  obtain ⟨u, uv, huv, hopen, hrest⟩ := hc
  exact ⟨u, uv, h.opened u uv huv hopen, hopen, hrest⟩

theorem windowEnd (h : ClosesUpvals L L') (fr : CallFrame) :
    L'.windowEnd fr = L.windowEnd fr := by
  unfold State.windowEnd
  rw [h.proto?, h.closure?]

theorem untouched (h : ClosesUpvals L L') (a : Addr) (lim : Nat)
    (fs : List CallFrame) : Untouched a lim fs L L' where
  current := h.current
  main := h.main
  pending hp := h.pending.trans hp
  captured _ _ hc := h.captured hc
  windows fr _ := h.windowEnd fr
  protos p hp := by rwa [h.proto?]
  slots := by
    intro th hth
    exact ⟨th, by rw [h.thread?, hth], fun _ _ _ => rfl⟩
  others b _ _ := by
    refine ⟨fun _ hc => h.captured hc, fun {th} hth => ?_⟩
    exact ⟨fun fr _ => h.windowEnd fr, th, by rw [h.thread?, hth], rfl, rfl, rfl,
      rfl, rfl, rfl, fun _ _ => rfl⟩

end ClosesUpvals

theorem sameCalls_of_marks (h : L' = { L with gc := L'.gc }) : SameCalls L L' := by
  rw [h]
  exact ⟨rfl, rfl, rfl, rfl, rfl, rfl, rfl⟩

theorem barrier_gc (L : State) (parent : Addr) (v : TValue) :
    L.barrier parent v = { L with gc := (L.barrier parent v).gc } := by
  unfold barrier markValue markObject
  split
  · split
    · split <;> rfl
    · rfl
  · rfl

theorem barriers_sameCalls (parent : Addr) (values : List TValue) :
    ∀ L : State, SameCalls L (L.barriers parent values) := by
  have hone : ∀ (L : State) v, SameCalls L (L.barrier parent v) :=
    fun L v => sameCalls_of_marks (L.barrier_gc parent v)
  induction values with
  | nil => exact fun L => .refl L
  | cons v values ih => exact fun L => (hone L v).trans (ih (L.barrier parent v))

theorem updateUpval_closes {u : Addr} {uv closed : UpVal}
    (hu : L.upval? u = some uv) (hclosed : closed.isOpen = false) :
    ClosesUpvals L (L.updateCell u fun _ => .upval closed) := by
  generalize hL' : L.updateCell u (fun _ => .upval closed) = L'
  have hobject : ∀ b, L'.object? b =
      if b = u then some (.upval closed) else L.object? b := by
    intro b
    rw [← hL']
    refine (Heap.object?_update L.heap (fun _ => .upval closed) u b).trans ?_
    by_cases hb : b = u
    · subst hb
      have ho : L.heap.object? b = some (.upval uv) := upval?_eq_some.mp hu
      rw [if_pos rfl, if_pos rfl, ho]
      rfl
    · rw [if_neg hb, if_neg hb]
      rfl
  refine ⟨by rw [← hL']; rfl, by rw [← hL']; rfl, by rw [← hL']; rfl,
    ?_, ?_, ?_, fun v uv' huv hopen => ?_⟩
  · funext b
    by_cases hb : b = u
    · simp only [thread?, hobject, if_pos hb]
      rw [hb, upval?_eq_some.mp hu]
    · simp only [thread?, hobject, if_neg hb]
  · funext b
    by_cases hb : b = u
    · simp only [proto?, hobject, if_pos hb]
      rw [hb, upval?_eq_some.mp hu]
    · simp only [proto?, hobject, if_neg hb]
  · funext b
    by_cases hb : b = u
    · simp only [closure?, hobject, if_pos hb]
      rw [hb, upval?_eq_some.mp hu]
    · simp only [closure?, hobject, if_neg hb]
  · by_cases hv : v = u
    · simp only [upval?, hobject, if_pos hv, Option.some.injEq] at huv
      rw [← huv, hclosed] at hopen
      contradiction
    · simpa only [upval?, hobject, if_neg hv] using huv

theorem closeUpval_closes (L : State) (u : Addr) :
    ClosesUpvals L (L.closeUpval u) := by
  unfold closeUpval
  split
  · rename_i uv hu
    unfold upvalClose
    split
    · exact (updateUpval_closes hu rfl).trans
        (.of_sameCalls (barriers_sameCalls u _ _))
    · exact .of_sameCalls (.refl L)
  · exact .of_sameCalls (.refl L)

theorem closeUpvals_closes {a : Addr} {th : Thread} (hth : L.thread? a = some th)
    (level : Nat) :
    ∃ (L₁ : State) (us : Thread → List Addr), ClosesUpvals L L₁ ∧ L.closeUpvals a level =
      L₁.updateThread a fun th => { th with openUpvals := us th } := by
  have hfold : ∀ (us : List Addr) (L : State),
      ClosesUpvals L (us.foldl closeUpval L) := by
    intro us
    induction us with
    | nil => exact fun L => .of_sameCalls (.refl L)
    | cons u us ih => exact fun L => (L.closeUpval_closes u).trans (ih _)
  unfold closeUpvals
  simp only [hth]
  exact ⟨_, _, hfold _ L, rfl⟩

theorem closeUpvals_spec {a : Addr} {th : Thread} (hth : L.thread? a = some th)
    (level lim : Nat) (fs : List CallFrame) :
    Untouched a lim fs L (L.closeUpvals a level) ∧
      ∃ us, (L.closeUpvals a level).thread? a =
        some { th with openUpvals := us } := by
  obtain ⟨L₁, us, hcloses, heq⟩ := closeUpvals_closes hth level
  rw [heq]
  refine ⟨(hcloses.untouched a lim fs).trans
    (Untouched.updateThread _ _ fun _ _ _ => rfl), us th, ?_⟩
  rw [thread?_updateThread, hcloses.thread?, hth]
  rfl

theorem closeUpvals_functions {a : Addr} {th : Thread} (hth : L.thread? a = some th)
    (level : Nat) : (L.closeUpvals a level).proto? = L.proto? ∧
      (L.closeUpvals a level).closure? = L.closure? := by
  obtain ⟨L₁, us, hcloses, heq⟩ := closeUpvals_closes hth level
  rw [heq, proto?_updateThread, closure?_updateThread]
  exact ⟨hcloses.proto?, hcloses.closure?⟩

end State

end Luatier
