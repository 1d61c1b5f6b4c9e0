import Luatier.Lib.LinkedList
import Luatier.Lib.Machine
import Luatier.Lib.Variables
import Luatier.Runtime.State

/-!
# Open upvalues of all threads

The open upvalues of a thread are linked through `next_open`, in no order.
`find_upval` looks a slot up in that list, and `close_upvals` takes upvalues out
of it in place.
-/

namespace Luatier

open LinkedList Variables

/-- The stacks of the threads, and the upvalues in memory. -/
structure UpvalMemory where
  stack : Addr → List TValue
  openUpvals : Addr → Option Addr := fun _ => none
  /-- The upvalues that were created, newest first. -/
  heap : List Addr := []
  uv : Addr → UpVal := fun _ => {}
  nextOpen : Addr → Option Addr := fun _ => none

namespace UpvalMemory

variable (M : UpvalMemory)

def rounds : Nat := M.heap.length + 1

def slot (t : Addr) (i : Nat) : TValue := (M.stack t).getD i .nil

def writeSlot (t : Addr) (i : Nat) (v : TValue) : UpvalMemory :=
  { M with stack := Function.update M.stack t ((M.stack t).set i v) }

def growStack (t : Addr) (n : Nat) : UpvalMemory :=
  { M with stack := Function.update M.stack t (M.stack t ++ List.replicate n .nil) }

/-! ## `UpVal` -/

def openValue (uv : UpVal) : TValue :=
  match uv.thread with
  | some t => M.slot t uv.stackIndex
  | none => .nil

def get (u : Addr) : TValue :=
  if !(M.uv u).isOpen then (M.uv u).closed else M.openValue (M.uv u)

def set (u : Addr) (v : TValue) : UpvalMemory :=
  if (M.uv u).isOpen then
    match (M.uv u).thread with
    | some t => M.writeSlot t (M.uv u).stackIndex v
    | none => M
  else { M with uv := Function.update M.uv u { M.uv u with closed := v } }

/-- `UpVal::close` -/
def closed (uv : UpVal) : UpVal :=
  if !uv.isOpen then uv else { closed := M.openValue uv, isOpen := false }

/-! ## `State` -/

/-- What `find_upval` asks of an upvalue. -/
def isAt (t : Addr) (level : Nat) (u : Addr) : Bool :=
  (M.uv u).isOpen && (M.uv u).thread == some t && (M.uv u).stackIndex == level

def create (t : Addr) (level : Nat) (a : Addr) : UpvalMemory :=
  let uv : UpVal := { isOpen := true, thread := some t, stackIndex := level }
  { M with
    heap := a :: M.heap
    uv := Function.update M.uv a uv
    nextOpen := Function.update M.nextOpen a (M.openUpvals t)
    openUpvals := Function.update M.openUpvals t (some a) }

def findUpval (t : Addr) (level : Nat) (a : Addr) : Option (Addr × UpvalMemory) :=
  (find M.nextOpen (M.isAt t level) M.rounds (M.openUpvals t)).map fun
    | some u => (u, M)
    | none => (a, M.create t level a)

/-- What `close_upvals` asks of an upvalue. -/
def atOrAbove (t : Addr) (level : Nat) (uv : Addr → UpVal) (u : Addr) : Bool :=
  (uv u).isOpen && (uv u).thread == some t && level ≤ (uv u).stackIndex

def closeUpvals (t : Addr) (level : Nat) : Option UpvalMemory :=
  (unlinkAll (atOrAbove t level) (fun uv u => Function.update uv u (M.closed (uv u))) M.rounds
    .head ⟨M.openUpvals t, M.nextOpen⟩ M.uv).map fun r =>
      { M with
        uv := r.2
        nextOpen := r.1.next
        openUpvals := Function.update M.openUpvals t r.1.head }

/-- A step, with what is seen of it. -/
inductive Step : UpvalMemory → Event Addr Addr TValue → UpvalMemory → Prop
  | capture {M M' : UpvalMemory} {t u a : Addr} {level : Nat} :
      level < (M.stack t).length → a ∉ M.heap → M.findUpval t level a = some (u, M') →
      Step M (.capture t level u) M'
  | read {M : UpvalMemory} {u : Addr} : u ∈ M.heap → Step M (.read u (M.get u)) M
  | write {M : UpvalMemory} {u : Addr} (v : TValue) :
      u ∈ M.heap → Step M (.write u v) (M.set u v)
  | readSlot {M : UpvalMemory} {t : Addr} {i : Nat} :
      i < (M.stack t).length → Step M (.readSlot t i (M.slot t i)) M
  | writeSlot {M : UpvalMemory} {t : Addr} {i : Nat} (v : TValue) :
      i < (M.stack t).length → Step M (.writeSlot t i v) (M.writeSlot t i v)
  | move {M : UpvalMemory} (t : Addr) (n : Nat) : Step M (.move t) (M.growStack t n)
  | leave {M M' : UpvalMemory} {t : Addr} {level : Nat} :
      M.closeUpvals t level = some M' → Step M (.leave t level) M'

structure Shares (M : UpvalMemory) (A : Store Addr Addr TValue) (opened : Addr → List Addr) :
    Prop where
  leads : ∀ t, Leads M.nextOpen (M.openUpvals t) (opened t)
  nodup : ∀ t, (opened t).Nodup
  mem_opened : ∀ t u, u ∈ opened t ↔
    u ∈ M.heap ∧ (M.uv u).isOpen = true ∧ (M.uv u).thread = some t
  thread : ∀ u ∈ M.heap, (M.uv u).isOpen = true →
    ∃ t, (M.uv u).thread = some t ∧ (M.uv u).stackIndex < (M.stack t).length
  slots : ∀ t i, M.slot t i = A.value (A.current t i)
  names : ∀ u, (A.names u).isSome ↔ u ∈ M.heap
  names_open : ∀ {t u}, u ∈ opened t → A.names u = some (A.current t (M.uv u).stackIndex)
  names_closed : ∀ u ∈ M.heap, (M.uv u).isOpen = false → ∃ x, A.names u = some x ∧
    (M.uv u).closed = A.value x ∧ x.scope < A.scope x.owner x.slot
  handle : ∀ {u w x}, A.names u = some x → A.names w = some x → u = w

variable {M} {M' : UpvalMemory} {A : Store Addr Addr TValue} {opened : Addr → List Addr}
  {t u a : Addr} {level : Nat}

theorem Shares.start (stack : Addr → List TValue) :
    Shares { stack } ⟨fun _ _ => 0, fun _ => none, fun x => (stack x.owner).getD x.slot .nil⟩
      fun _ => [] where
  leads _ := rfl
  nodup _ := List.nodup_nil
  mem_opened _ _ := by simp
  thread _ h := nomatch h
  slots _ _ := rfl
  names _ := by simp
  names_open h := nomatch h
  names_closed _ h := nomatch h
  handle h := nomatch h

theorem Shares.opened_lt (h : Shares M A opened) (t : Addr) :
    (opened t).length < M.rounds := by
  have hsub : opened t ⊆ M.heap := fun u hu => ((h.mem_opened t u).mp hu).1
  exact Nat.lt_succ_of_le ((h.nodup t).subperm hsub).length_le

theorem Shares.get_eq (h : Shares M A opened) (hu : u ∈ M.heap) :
    ∃ x, A.names u = some x ∧ M.get u = A.value x := by
  cases hopen : (M.uv u).isOpen with
  | true =>
      obtain ⟨t, ht, -⟩ := h.thread u hu hopen
      refine ⟨_, h.names_open ((h.mem_opened t u).mpr ⟨hu, hopen, ht⟩), ?_⟩
      rw [get, hopen, openValue, ht, ← h.slots]
      rfl
  | false =>
      obtain ⟨x, hx, hvalue, -⟩ := h.names_closed u hu hopen
      refine ⟨x, hx, ?_⟩
      rw [get, hopen, ← hvalue]
      rfl

theorem Shares.slot_unique (h : Shares M A opened) {w : Addr} (hu : u ∈ opened t)
    (hw : w ∈ opened t) (hsame : (M.uv u).stackIndex = (M.uv w).stackIndex) : u = w :=
  h.handle (h.names_open hu) (hsame ▸ h.names_open hw)

/-! ## One step -/

theorem slot_writeSlot {i : Nat} (hi : i < (M.stack t).length) (v : TValue) (s : Addr) (j : Nat) :
    (M.writeSlot t i v).slot s j = if s = t ∧ j = i then v else M.slot s j := by
  by_cases hs : s = t
  · subst hs
    simp only [slot, writeSlot, Function.update_self, true_and, List.getD_eq_getElem?_getD]
    by_cases hj : j = i
    · subst hj
      rw [if_pos rfl, List.getElem?_set_self hi]
      rfl
    · rw [if_neg hj, List.getElem?_set_ne (Ne.symm hj)]
  · simp only [slot, writeSlot, Function.update_of_ne hs, hs, false_and, if_false]

theorem length_writeSlot (i : Nat) (v : TValue) (s : Addr) :
    ((M.writeSlot t i v).stack s).length = (M.stack s).length := by
  by_cases hs : s = t
  · subst hs
    simp only [writeSlot, Function.update_self, List.length_set]
  · simp only [writeSlot, Function.update_of_ne hs]

omit M M' u a level in
theorem current_eq_iff {s : Addr} {i j : Nat} :
    A.current s j = A.current t i ↔ s = t ∧ j = i := by
  constructor
  · intro h
    exact ⟨congrArg Var.owner h, congrArg Var.slot h⟩
  · rintro ⟨rfl, rfl⟩
    rfl

theorem Shares.writeSlot (h : Shares M A opened) {i : Nat} (hi : i < (M.stack t).length)
    (v : TValue) : Shares (M.writeSlot t i v) (A.assign (A.current t i) v) opened where
  leads := h.leads
  nodup := h.nodup
  mem_opened := h.mem_opened
  thread w hw hopen := by
    obtain ⟨s, hs, hlt⟩ := h.thread w hw hopen
    exact ⟨s, hs, by rwa [length_writeSlot]⟩
  slots s j := by
    rw [slot_writeSlot hi, value_assign, h.slots]
    exact if_congr current_eq_iff.symm rfl rfl
  names := h.names
  names_open := h.names_open
  names_closed w hw hopen := by
    obtain ⟨x, hx, hvalue, hscope⟩ := h.names_closed w hw hopen
    refine ⟨x, hx, ?_, hscope⟩
    rw [value_assign, if_neg]
    · exact hvalue
    · rintro rfl
      exact Nat.lt_irrefl _ hscope
  handle := h.handle

theorem Shares.set (h : Shares M A opened) (hu : u ∈ M.heap) (v : TValue) :
    ∃ x, A.names u = some x ∧ Shares (M.set u v) (A.assign x v) opened := by
  cases hopen : (M.uv u).isOpen with
  | true =>
      obtain ⟨t, ht, hlt⟩ := h.thread u hu hopen
      refine ⟨_, h.names_open ((h.mem_opened t u).mpr ⟨hu, hopen, ht⟩), ?_⟩
      rw [UpvalMemory.set, if_pos hopen, ht]
      exact h.writeSlot hlt v
  | false =>
      obtain ⟨x, hx, -, hscope⟩ := h.names_closed u hu hopen
      refine ⟨x, hx, ?_⟩
      have hother : ∀ w, (M.uv w).isOpen = true → w ≠ u := fun w hw hwu => by
        rw [hwu, hopen] at hw
        exact nomatch hw
      have hset : M.set u v = { M with uv := Function.update M.uv u { M.uv u with closed := v } } :=
        if_neg (Bool.eq_false_iff.mp hopen)
      have huv : ∀ w, (M.set u v).uv w = if w = u then { M.uv u with closed := v } else M.uv w := by
        intro w
        rw [hset]
        exact Function.update_apply M.uv u _ w
      have hheap : (M.set u v).heap = M.heap := by rw [hset]
      have hstack : (M.set u v).stack = M.stack := by rw [hset]
      refine ⟨by rw [hset]; exact h.leads, h.nodup, fun t w => ?_, fun w hw hopen' => ?_,
        fun s j => ?_, fun w => hheap ▸ h.names w, fun {t w} hw => ?_, fun w hw hopen' => ?_,
        h.handle⟩
      · rw [h.mem_opened, huv, hheap]
        by_cases hwu : w = u
        · rw [if_pos hwu, hwu, hopen]
        · rw [if_neg hwu]
      · rw [huv] at hopen' ⊢
        rw [hheap] at hw
        rw [hstack]
        by_cases hwu : w = u
        · rw [if_pos hwu, hopen] at hopen'
          exact nomatch hopen'
        · rw [if_neg hwu] at hopen' ⊢
          exact h.thread w hw hopen'
      · rw [value_assign, if_neg]
        · rw [slot, hstack]
          exact h.slots s j
        · intro hcur
          rw [← hcur] at hscope
          exact Nat.lt_irrefl _ hscope
      · rw [huv, if_neg (hother w ((h.mem_opened t w).mp hw).2.1)]
        exact h.names_open hw
      · rw [huv] at hopen' ⊢
        rw [hheap] at hw
        by_cases hwu : w = u
        · subst hwu
          rw [if_pos rfl]
          refine ⟨x, hx, ?_, hscope⟩
          rw [value_assign, if_pos rfl]
        · rw [if_neg hwu] at hopen' ⊢
          obtain ⟨y, hy, hvalue, hscope'⟩ := h.names_closed w hw hopen'
          refine ⟨y, hy, ?_, hscope'⟩
          rw [value_assign, if_neg]
          · exact hvalue
          · rintro rfl
            exact hwu (h.handle hy hx)

theorem Shares.growStack (h : Shares M A opened) (t : Addr) (n : Nat) :
    Shares (M.growStack t n) A opened := by
  have hslot : ∀ s i, (M.growStack t n).slot s i = M.slot s i := by
    intro s i
    by_cases hs : s = t
    · subst hs
      simp only [slot, UpvalMemory.growStack, Function.update_self, List.getD_eq_getElem?_getD]
      by_cases hi : i < (M.stack s).length
      · rw [List.getElem?_append_left hi]
      · rw [List.getElem?_append_right (Nat.le_of_not_lt hi),
          List.getElem?_eq_none (Nat.le_of_not_lt hi), List.getElem?_replicate]
        split <;> rfl
    · simp only [slot, UpvalMemory.growStack, Function.update_of_ne hs]
  refine ⟨h.leads, h.nodup, h.mem_opened, fun w hw hopen => ?_, fun s i => ?_, h.names,
    h.names_open, h.names_closed, h.handle⟩
  · obtain ⟨s, hs, hlt⟩ := h.thread w hw hopen
    refine ⟨s, hs, Nat.lt_of_lt_of_le hlt ?_⟩
    by_cases hst : s = t
    · subst hst
      simp only [UpvalMemory.growStack, Function.update_self, List.length_append]
      exact Nat.le_add_right _ _
    · simp only [UpvalMemory.growStack, Function.update_of_ne hst]
      exact Nat.le_refl _
  · rw [hslot]
    exact h.slots s i

theorem Shares.names_of_find (h : Shares M A opened) {w : Addr}
    (hfound : (opened t).find? (M.isAt t level) = some w) :
    A.names w = some (A.current t level) := by
  have hname := h.names_open (List.mem_of_find?_eq_some hfound)
  have htest := List.find?_some hfound
  simp only [isAt, Bool.and_eq_true, beq_iff_eq] at htest
  rwa [htest.2] at hname

theorem Shares.names_of_not_find (h : Shares M A opened)
    (hfound : (opened t).find? (M.isAt t level) = none) (w : Addr) :
    A.names w ≠ some (A.current t level) := by
  intro hname
  have hw : w ∈ M.heap := (h.names w).mp (by rw [hname]; rfl)
  cases hopen : (M.uv w).isOpen with
  | true =>
      obtain ⟨s, hs, -⟩ := h.thread w hw hopen
      have hmem := (h.mem_opened s w).mpr ⟨hw, hopen, hs⟩
      obtain ⟨rfl, hindex⟩ := current_eq_iff.mp
        (Option.some.inj ((h.names_open hmem).symm.trans hname))
      refine List.find?_eq_none.mp hfound w hmem ?_
      simp [isAt, hopen, hs, hindex]
  | false =>
      obtain ⟨x, hx, -, hscope⟩ := h.names_closed w hw hopen
      obtain rfl : x = A.current t level := Option.some.inj (hx.symm.trans hname)
      exact Nat.lt_irrefl _ hscope

theorem Shares.create (h : Shares M A opened) (hlevel : level < (M.stack t).length)
    (ha : a ∉ M.heap) (hnew : ∀ w, A.names w ≠ some (A.current t level)) :
    Shares (M.create t level a) (A.name a (A.current t level))
      (Function.update opened t (a :: opened t)) := by
  have hout : ∀ s, a ∉ opened s := fun s hmem => ha ((h.mem_opened s a).mp hmem).1
  have huv : ∀ w, (M.create t level a).uv w =
      if w = a then { isOpen := true, thread := some t, stackIndex := level } else M.uv w :=
    fun w => Function.update_apply M.uv a _ w
  have hopened : ∀ s, Function.update opened t (a :: opened t) s =
      if s = t then a :: opened t else opened s := fun s => Function.update_apply opened t _ s
  have hhead : ∀ s, (M.create t level a).openUpvals s =
      if s = t then some a else M.openUpvals s := fun s =>
    Function.update_apply M.openUpvals t _ s
  have hne : ∀ {w}, w ∈ M.heap → w ≠ a := fun hw hwa => ha (hwa ▸ hw)
  have hheap : ∀ w, w ∈ (M.create t level a).heap ↔ w = a ∨ w ∈ M.heap := fun w => List.mem_cons
  refine ⟨fun s => ?_, fun s => ?_, fun s w => ?_, fun w hw hopen => ?_, h.slots, fun w => ?_,
    fun {s w} hw => ?_, fun w hw hopen => ?_, fun {w w' x} hw hw' => ?_⟩
  · rw [hopened, hhead]
    by_cases hs : s = t
    · rw [if_pos hs, if_pos hs]
      exact (h.leads t).pushFront (hout t)
    · rw [if_neg hs, if_neg hs]
      exact (h.leads s).update (hout s) _
  · rw [hopened]
    by_cases hs : s = t
    · rw [if_pos hs]
      exact List.nodup_cons.mpr ⟨hout t, h.nodup t⟩
    · rw [if_neg hs]
      exact h.nodup s
  · rw [hopened, hheap, huv]
    by_cases hw : w = a
    · subst hw
      by_cases hs : s = t
      · simp [hs]
      · simp [hs, hout s, Ne.symm hs]
    · by_cases hs : s = t
      · simp [hs, hw, h.mem_opened]
      · simp [hs, hw, h.mem_opened]
  · rw [huv] at hopen ⊢
    by_cases hwa : w = a
    · rw [if_pos hwa]
      exact ⟨t, rfl, hlevel⟩
    · rw [if_neg hwa] at hopen ⊢
      exact h.thread w (((hheap w).mp hw).resolve_left hwa) hopen
  · rw [names_name, hheap]
    by_cases hw : w = a
    · simp [hw]
    · simp [hw, h.names]
  · rw [hopened] at hw
    rw [names_name, huv]
    by_cases hwa : w = a
    · rw [if_pos hwa, if_pos hwa]
      by_cases hs : s = t
      · rw [hs]
        rfl
      · rw [if_neg hs, hwa] at hw
        exact absurd hw (hout s)
    · rw [if_neg hwa, if_neg hwa]
      refine h.names_open ?_
      by_cases hs : s = t
      · rw [if_pos hs] at hw
        rw [hs]
        exact (List.mem_cons.mp hw).resolve_left hwa
      · rwa [if_neg hs] at hw
  · rw [huv] at hopen ⊢
    by_cases hwa : w = a
    · rw [if_pos hwa] at hopen
      exact nomatch hopen
    · rw [if_neg hwa] at hopen ⊢
      obtain ⟨x, hx, hrest⟩ := h.names_closed w (((hheap w).mp hw).resolve_left hwa) hopen
      refine ⟨x, ?_, hrest⟩
      rw [names_name, if_neg hwa, hx]
  · rw [names_name] at hw hw'
    by_cases hwa : w = a
    · by_cases hwa' : w' = a
      · rw [hwa, hwa']
      · rw [if_pos hwa] at hw
        rw [if_neg hwa', ← hw] at hw'
        exact absurd hw' (hnew w')
    · by_cases hwa' : w' = a
      · rw [if_pos hwa'] at hw'
        rw [if_neg hwa, ← hw'] at hw
        exact absurd hw (hnew w)
      · rw [if_neg hwa] at hw
        rw [if_neg hwa'] at hw'
        exact h.handle hw hw'

theorem Shares.findUpval (h : Shares M A opened) (hlevel : level < (M.stack t).length)
    (ha : a ∉ M.heap) : ∃ u M' opened', M.findUpval t level a = some (u, M') ∧
      (A.names u = none ∨ A.names u = some (A.current t level)) ∧
      (∀ w, A.names w = some (A.current t level) → w = u) ∧
      Shares M' (A.name u (A.current t level)) opened' := by
  unfold UpvalMemory.findUpval
  rw [find_eq (M.isAt t level) (h.leads t) (h.opened_lt t)]
  cases hfound : (opened t).find? (M.isAt t level) with
  | some u =>
      have hname := h.names_of_find hfound
      refine ⟨u, M, opened, rfl, Or.inr hname, fun w hw => h.handle hw hname, ?_⟩
      have hsame : A.name u (A.current t level) = A := by
        rw [Store.name, ← hname, Function.update_eq_self]
      rwa [hsame]
  | none =>
      have hnone := h.names_of_not_find hfound
      refine ⟨a, _, _, rfl, Or.inl ?_, fun w hw => absurd hw (hnone w),
        h.create hlevel ha hnone⟩
      rw [← Option.not_isSome_iff_eq_none, h.names]
      exact ha

theorem atOrAbove_iff {w : Addr} : atOrAbove t level M.uv w = true ↔
    (M.uv w).isOpen = true ∧ (M.uv w).thread = some t ∧ level ≤ (M.uv w).stackIndex := by
  simp only [atOrAbove, Bool.and_eq_true, beq_iff_eq, decide_eq_true_eq, and_assoc]

/-- The upvalues after `close_upvals`. -/
def closedFrom (M : UpvalMemory) (t : Addr) (level : Nat) (w : Addr) : UpVal :=
  if atOrAbove t level M.uv w then { closed := M.get w, isOpen := false } else M.uv w

/--
`close_upvals` closes the upvalues at or above the level, each with the value of
its slot, and keeps the others of the list.
-/
theorem Shares.closeUpvals_eq (h : Shares M A opened) (t : Addr) (level : Nat) :
    ∃ M', M.closeUpvals t level = some M' ∧ M'.stack = M.stack ∧ M'.heap = M.heap ∧
      (∀ w ∈ M.heap, M'.uv w = M.closedFrom t level w) ∧
      ∀ s, Leads M'.nextOpen (M'.openUpvals s)
        ((opened s).filter fun w => !atOrAbove t level M.uv w) := by
  have hlocal : Local (atOrAbove t level)
      (fun uv (u : Addr) => Function.update uv u (M.closed (uv u))) := by
    intro uv a b hab
    simp only [atOrAbove, Function.update_of_ne (Ne.symm hab)]
  obtain ⟨m, hm, hframe, hleads⟩ := unlinkAll_spec (q := .head)
    (m := ⟨M.openUpvals t, M.nextOpen⟩) hlocal M.uv (h.leads t) (h.nodup t)
    (fun _ hh => nomatch hh) (h.opened_lt t)
  let M' : UpvalMemory :=
    { M with
      uv := ((opened t).filter (atOrAbove t level M.uv)).foldl
        (fun uv u => Function.update uv u (M.closed (uv u))) M.uv
      nextOpen := m.next
      openUpvals := Function.update M.openUpvals t m.head }
  refine ⟨M', ?_, rfl, rfl, fun w hw => ?_, fun s => ?_⟩
  · rw [UpvalMemory.closeUpvals, hm]
    rfl
  · show ((opened t).filter (atOrAbove t level M.uv)).foldl _ M.uv w = _
    rw [foldl_update M.closed ((h.nodup t).filter _), closedFrom]
    by_cases htest : atOrAbove t level M.uv w = true
    · obtain ⟨hopen, hthread, -⟩ := atOrAbove_iff.mp htest
      have hmem := (h.mem_opened t w).mpr ⟨hw, hopen, hthread⟩
      rw [if_pos (List.mem_filter.mpr ⟨hmem, htest⟩), if_pos htest, closed, get, hopen]
      rfl
    · rw [if_neg fun hmem => htest (List.mem_filter.mp hmem).2, if_neg htest]
  · show Leads m.next (Function.update M.openUpvals t m.head s) _
    by_cases hs : s = t
    · subst hs
      rw [Function.update_self]
      exact hleads
    · rw [Function.update_of_ne hs]
      have hkeep : (opened s).filter (fun w => !atOrAbove t level M.uv w) = opened s := by
        refine List.filter_eq_self.mpr fun w hw => ?_
        have hthread := ((h.mem_opened s w).mp hw).2.2
        rw [Bool.not_eq_true', ← Bool.not_eq_true, atOrAbove_iff, hthread]
        rintro ⟨-, heq, -⟩
        exact hs (Option.some.inj heq)
      rw [hkeep]
      refine (h.leads s).congr fun w hw => hframe.next w (fun hw' => hs ?_) fun hh => nomatch hh
      have hthread := ((h.mem_opened s w).mp hw).2.2
      rw [((h.mem_opened t w).mp hw').2.2] at hthread
      exact Option.some.inj hthread.symm

theorem Shares.leave (h : Shares M A opened) (hclose : M.closeUpvals t level = some M') :
    Shares M' (A.leave t level) fun s => (opened s).filter fun w => !atOrAbove t level M.uv w := by
  obtain ⟨M₁, hok, hstack, hheap, huv, hleads⟩ := h.closeUpvals_eq t level
  obtain rfl : M₁ = M' := Option.some.inj (hok.symm.trans hclose)
  have hslot : M₁.slot = M.slot := by
    funext s i
    rw [slot, slot, hstack]
  have hkept : ∀ {w}, w ∈ M.heap → (M₁.uv w).isOpen = true →
      atOrAbove t level M.uv w = false ∧ M₁.uv w = M.uv w := by
    intro w hw hopen
    have huvw := huv w hw
    rw [closedFrom] at huvw
    cases htest : atOrAbove t level M.uv w with
    | true =>
        rw [htest, if_pos rfl] at huvw
        rw [huvw] at hopen
        exact nomatch hopen
    | false =>
        rw [htest, if_neg Bool.false_ne_true] at huvw
        exact ⟨rfl, huvw⟩
  refine ⟨hleads, fun s => (h.nodup s).filter _, fun s w => ?_, fun w hw hopen => ?_,
    fun s i => ?_, fun w => ?_, fun {s w} hw => ?_, fun w hw hopen => ?_, h.handle⟩
  · rw [List.mem_filter, h.mem_opened, hheap, Bool.not_eq_true']
    constructor
    · rintro ⟨⟨hw, hopen, hthread⟩, htest⟩
      have huvw := huv w hw
      rw [closedFrom, htest, if_neg Bool.false_ne_true] at huvw
      rw [huvw]
      exact ⟨hw, hopen, hthread⟩
    · rintro ⟨hw, hopen, hthread⟩
      obtain ⟨htest, hsame⟩ := hkept hw hopen
      rw [hsame] at hopen hthread
      exact ⟨⟨hw, hopen, hthread⟩, htest⟩
  · rw [hheap] at hw
    have hsame := (hkept hw hopen).2
    rw [hsame] at hopen ⊢
    rw [hstack]
    exact h.thread w hw hopen
  · rw [hslot, value_current_leave]
    exact h.slots s i
  · rw [hheap]
    exact h.names w
  · obtain ⟨hmem, htest⟩ := List.mem_filter.mp hw
    rw [Bool.not_eq_true'] at htest
    obtain ⟨hheapw, hopen, hthread⟩ := (h.mem_opened s w).mp hmem
    have huvw := huv w hheapw
    rw [closedFrom, htest, if_neg Bool.false_ne_true] at huvw
    rw [huvw, current_leave_of_not]
    · exact h.names_open hmem
    · rintro ⟨rfl, hle⟩
      rw [atOrAbove_iff.mpr ⟨hopen, hthread, hle⟩] at htest
      exact nomatch htest
  · rw [hheap] at hw
    have huvw := huv w hw
    rw [closedFrom] at huvw
    by_cases htest : atOrAbove t level M.uv w = true
    · obtain ⟨hopen', hthread, hle⟩ := atOrAbove_iff.mp htest
      rw [if_pos htest] at huvw
      have hname := h.names_open ((h.mem_opened t w).mpr ⟨hw, hopen', hthread⟩)
      refine ⟨_, hname, ?_, ?_⟩
      · obtain ⟨x, hx, hget⟩ := h.get_eq hw
        obtain rfl := Option.some.inj (hx.symm.trans hname)
        rw [huvw, hget, value_leave (Nat.le_refl _)]
      · show A.scope t _ < (if _ then _ else _)
        rw [if_pos ⟨rfl, hle⟩]
        exact Nat.lt_succ_self _
    · rw [if_neg htest] at huvw
      rw [huvw] at hopen ⊢
      obtain ⟨x, hx, hvalue, hscope⟩ := h.names_closed w hw hopen
      refine ⟨x, hx, ?_, Nat.lt_of_lt_of_le hscope (scope_le_leave _ _)⟩
      rw [hvalue, value_leave (Nat.le_of_lt hscope)]

/-! ## Runs -/

def Shared (M : UpvalMemory) (A : Store Addr Addr TValue) : Prop := ∃ opened, Shares M A opened

theorem Shared.step {e : Event Addr Addr TValue} (h : Shared M A) (hstep : Step M e M') :
    ∃ A', Variables.Step A e A' ∧ Shared M' A' := by
  obtain ⟨opened, h⟩ := h
  cases hstep with
  | capture hlevel ha hfind =>
      obtain ⟨u, M₁, opened', hok, hname, hone, h'⟩ := h.findUpval hlevel ha
      rw [hfind] at hok
      cases hok
      exact ⟨_, .capture hname hone, opened', h'⟩
  | read hu =>
      obtain ⟨x, hx, hget⟩ := h.get_eq hu
      rw [hget]
      exact ⟨A, .read hx, opened, h⟩
  | write v hu =>
      obtain ⟨x, hx, h'⟩ := h.set hu v
      exact ⟨_, .write v hx, opened, h'⟩
  | readSlot hi =>
      rw [h.slots]
      exact ⟨A, .readSlot _ _, opened, h⟩
  | writeSlot v hi => exact ⟨_, .writeSlot _ _ v, opened, h.writeSlot hi v⟩
  | move t n => exact ⟨A, .move t, opened, h.growStack t n⟩
  | leave hclose => exact ⟨_, .leave _ _, _, h.leave hclose⟩

/--
What is seen in a run from any stacks is seen of variables that upvalues are
handles of.  After it every slot has at most one open upvalue, which is in the
list of its thread; and `close_upvals` closes those of a thread at or above a
level, with the values of their slots, and keeps the others in their lists.
-/
theorem upvals_shared {stack : Addr → List TValue} {es : List (Event Addr Addr TValue)}
    (hrun : Machine.Run Step { stack } es M) :
    (∃ A, Machine.Run Variables.Step ⟨fun _ _ => 0, fun _ => none,
        fun x => (stack x.owner).getD x.slot .nil⟩ es A ∧
      (∀ t i, M.slot t i = A.value (A.current t i)) ∧
      (∀ u ∈ M.heap, ∃ x, A.names u = some x ∧ M.get u = A.value x) ∧
      ∀ u ∈ M.heap, (M.uv u).isOpen = true → ∃ t, (M.uv u).thread = some t ∧
        A.names u = some (A.current t (M.uv u).stackIndex)) ∧
    ∃ opened : Addr → List Addr,
      (∀ t, Leads M.nextOpen (M.openUpvals t) (opened t) ∧ (opened t).Nodup ∧
        ∀ u, u ∈ opened t ↔ u ∈ M.heap ∧ (M.uv u).isOpen = true ∧ (M.uv u).thread = some t) ∧
      (∀ t u w, u ∈ opened t → w ∈ opened t →
        (M.uv u).stackIndex = (M.uv w).stackIndex → u = w) ∧
      (∀ t level a, level < (M.stack t).length → a ∉ M.heap →
        ∃ r, M.findUpval t level a = some r) ∧
      ∀ t level, ∃ M', M.closeUpvals t level = some M' ∧ M'.stack = M.stack ∧
        M'.heap = M.heap ∧ (∀ u ∈ M.heap, M'.uv u = M.closedFrom t level u) ∧
        ∀ s, Leads M'.nextOpen (M'.openUpvals s)
          ((opened s).filter fun u => !atOrAbove t level M.uv u) := by
  have hstart : Shared { stack } _ := ⟨_, .start stack⟩
  obtain ⟨A, hspec, opened, h⟩ := Machine.Run.simulate Shared.step hstart hrun
  refine ⟨⟨A, hspec, h.slots, fun u hu => h.get_eq hu, fun u hu hopen => ?_⟩, opened,
    fun t => ⟨h.leads t, h.nodup t, h.mem_opened t⟩,
    fun t u w hu hw hsame => h.slot_unique hu hw hsame, fun t level a hlevel ha => ?_,
    fun t level => h.closeUpvals_eq t level⟩
  · obtain ⟨t, ht, -⟩ := h.thread u hu hopen
    exact ⟨t, ht, h.names_open ((h.mem_opened t u).mpr ⟨hu, hopen, ht⟩)⟩
  · obtain ⟨u, M', -, hok, -⟩ := h.findUpval hlevel ha
    exact ⟨(u, M'), hok⟩

/-- A variable is captured, written through its upvalue and read in its slot, then left. -/
def captured : List (Event Addr Addr TValue) :=
  [.capture 1 0 7, .write 7 (.boolean true), .readSlot 1 0 (.boolean true), .leave 1 0,
    .writeSlot 1 0 .nil, .read 7 (.boolean true)]

theorem captured_shared : ∃ M, Machine.Run Step { stack := fun _ => [.nil] } captured M ∧
    M.slot 1 0 = .nil ∧ ∃ A, Machine.Run Variables.Step ⟨fun _ _ => 0, fun _ => none,
      fun x => ([TValue.nil] : List TValue).getD x.slot .nil⟩ captured A := by
  let M₀ : UpvalMemory := { stack := fun _ => [.nil] }
  have hcapture : Step M₀ (.capture 1 0 7) (M₀.create 1 0 7) :=
    .capture (a := 7) Nat.one_pos (List.not_mem_nil) rfl
  let M₁ := (M₀.create 1 0 7).set 7 (.boolean true)
  have hwrite : Step (M₀.create 1 0 7) (.write 7 (.boolean true)) M₁ :=
    .write _ List.mem_cons_self
  have hread : Step M₁ (.readSlot 1 0 (.boolean true)) M₁ := .readSlot Nat.one_pos
  let M₂ := (M₁.closeUpvals 1 0).getD M₁
  have hleave : Step M₁ (.leave 1 0) M₂ := .leave rfl
  have hrewrite : Step M₂ (.writeSlot 1 0 .nil) (M₂.writeSlot 1 0 .nil) :=
    .writeSlot _ Nat.one_pos
  have hget : Step (M₂.writeSlot 1 0 .nil) (.read 7 (.boolean true)) (M₂.writeSlot 1 0 .nil) :=
    .read List.mem_cons_self
  have hrun : Machine.Run Step M₀ captured (M₂.writeSlot 1 0 .nil) :=
    ((((((Machine.Run.refl M₀).step hcapture).step hwrite).step hread).step hleave).step
      hrewrite).step hget
  obtain ⟨⟨A, hspec, -⟩, -⟩ := upvals_shared hrun
  exact ⟨_, hrun, rfl, A, hspec⟩

end UpvalMemory

end Luatier
