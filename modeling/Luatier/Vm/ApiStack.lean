import Mathlib.Data.List.InsertIdx
import Luatier.Lib.Machine
import Luatier.Vm.Call
import Luatier.Vm.StackAccess

/-!
# The stack of the C API

A native function works on the slots between the base and the top of its
thread.  Slots above the top keep what was written there.
-/

namespace Luatier

open Cells

/-- The operations of a native function on its window. -/
inductive ApiOp where
  | push (v : TValue)
  | pop
  | settop (idx : Int)
  | luaPop (n : Int)
  | pushvalue (idx : Int)
  | insert (idx : Int)
  | remove (idx : Int)
  deriving DecidableEq, Repr

namespace Thread

def gettop (th : Thread) : Int := (th.top : Int) - th.stackBase

def absindex (th : Thread) (idx : Int) : Int :=
  if 0 < idx then idx else if idx = 0 then 0 else th.gettop + idx + 1

end Thread

/-! ## The code -/

namespace OnStack

def setAbsTop (absIdx : Nat) : OnStack Unit := do
  ensure absIdx
  let th ← get
  -- Growing leaves the slots as they are.
  if absIdx < th.top then clear absIdx th.top
  change ({ · with top := absIdx })

def settop (idx : Int) : OnStack Unit := do
  let th ← get
  let idx := if idx < 0 then th.gettop + idx + 1 else idx
  let idx := if idx < 0 then 0 else idx
  setAbsTop (th.stackBase + idx).toNat

def push (v : TValue) : OnStack Unit := do
  let th ← get
  ensure (th.top + 1)
  write th.top v
  change ({ · with top := th.top + 1 })

def pop : OnStack TValue := do
  let th ← get
  if th.top ≤ th.stackBase then pure .nil
  else
    change ({ · with top := th.top - 1 })
    read (th.top - 1)

def slotAt (idx : Int) : OnStack Nat := do
  let th ← get
  let idx := th.absindex idx
  if idx ≤ 0 ∨ th.gettop < idx then throw (.raised "invalid stack index")
  else pure (th.stackBase + idx - 1).toNat

/-- `lua_pop` -/
def luaPop (n : Int) : OnStack Unit := do
  let th ← get
  settop (th.gettop - n)

/--
`lua_pushvalue`: `push` gets a reference to the slot.  When `ensure_stack` moves
the slots elsewhere, nothing is left where the reference points to.  Whether a
growing vector moves (`moves`) depends on its capacity.
-/
def luaPushvalue (moves : Thread → Bool) (idx : Int) : OnStack Unit := do
  let i ← slotAt idx
  let th ← get
  ensure (th.top + 1)
  if th.stack.length < th.top + 1 ∧ moves th = true then throw (.outOfBounds i 0)
  else
    let v ← read i
    write th.top v
    change ({ · with top := th.top + 1 })

/-- `lua_remove`; the index is not checked, and acceptable ones are positive. -/
def luaRemove (idx : Int) : OnStack Unit := do
  let th ← get
  let idx := th.absindex idx
  copyUp (th.stackBase + idx - 1).toNat (th.stackBase + idx).toNat (th.gettop - idx).toNat
  settop (th.gettop - 1)

/-- `lua_insert`; the index is not checked, and acceptable ones are positive. -/
def luaInsert (idx : Int) : OnStack Unit := do
  let th ← get
  let idx := th.absindex idx
  let v ← read (th.stackBase + th.gettop - 1).toNat
  copyDown (th.stackBase + idx).toNat (th.stackBase + idx - 1).toNat (th.gettop - idx).toNat
  write (th.stackBase + idx - 1).toNat v

def apiOp (moves : Thread → Bool) : ApiOp → OnStack (List TValue)
  | .push v => do push v; pure []
  | .pop => do
      let v ← pop
      pure [v]
  | .settop idx => do settop idx; pure []
  | .luaPop n => do luaPop n; pure []
  | .pushvalue idx => do luaPushvalue moves idx; pure []
  | .insert idx => do luaInsert idx; pure []
  | .remove idx => do luaRemove idx; pure []

def apiStep (moves : Thread → Bool) (th : Thread) (op : ApiOp) :
    Except Stop (Thread × List TValue) :=
  match apiOp moves op th with
  | .ok vs th' => .ok (th', vs)
  | .error e _ => .error e

end OnStack

/-! ## The same operations on a list -/

namespace ApiList

def position (l : List TValue) (idx : Int) : Int :=
  if idx < 0 then l.length + idx + 1 else idx

/-- An element that is there. -/
def Valid (l : List TValue) (idx : Int) : Prop :=
  0 < position l idx ∧ position l idx ≤ l.length

def Acceptable (l : List TValue) : ApiOp → Prop
  | .push _ | .pop => True
  | .settop idx => 0 ≤ position l idx
  | .luaPop n => 0 ≤ n ∧ n ≤ l.length
  | .pushvalue idx | .insert idx | .remove idx => Valid l idx

def resize (l : List TValue) (n : Nat) : List TValue :=
  l.take n ++ List.replicate (n - l.length) .nil

def step (l : List TValue) : ApiOp → List TValue × List TValue
  | .push v => (l ++ [v], [])
  | .pop => (l.dropLast, [l.getLastD .nil])
  | .settop idx => (resize l (position l idx).toNat, [])
  | .luaPop n => (resize l (l.length - n.toNat), [])
  | .pushvalue idx => (l ++ [l.getD (position l idx - 1).toNat .nil], [])
  | .insert idx => (l.dropLast.insertIdx (position l idx - 1).toNat (l.getLastD .nil), [])
  | .remove idx => (l.eraseIdx (position l idx - 1).toNat, [])

end ApiList

/-! ## The window as a list -/

namespace Thread

variable {th₀ th th' : Thread} {l l' : List TValue}

/-- Since `th₀`, the window has become `l` and nothing below it has changed. -/
structure Shows (th₀ th : Thread) (l : List TValue) : Prop where
  base_le : th.stackBase ≤ th.top
  top_le : th.top ≤ th.stack.length
  window : th.window = l
  base : th.stackBase = th₀.stackBase
  below : ∀ i < th₀.stackBase, th.slot i = th₀.slot i

theorem length_window (th : Thread) : th.window.length = th.top - th.stackBase := by
  simp [Thread.window]

theorem getElem_window {i : Nat} (hi : i < th.window.length) :
    th.window[i] = th.slot (th.stackBase + i) := by
  simp [Thread.window]

namespace Shows

variable (h : Shows th₀ th l)

include h

theorem top_eq : th.top = th.stackBase + l.length := by
  have hlen := th.length_window
  have hle := h.base_le
  rw [h.window] at hlen
  omega

theorem gettop_eq : th.gettop = l.length := by
  rw [gettop, h.top_eq]
  omega

theorem absindex_eq (idx : Int) : th.absindex idx = ApiList.position l idx := by
  unfold absindex ApiList.position
  rw [h.gettop_eq]
  by_cases hneg : idx < 0
  · rw [if_neg (by omega), if_neg (by omega), if_pos hneg]
  · rw [if_neg hneg]
    split <;> omega

theorem slot_eq {i : Nat} (hi : i < l.length) : th.slot (th.stackBase + i) = l[i] := by
  have hwindow := h.window
  subst hwindow
  exact (getElem_window hi).symm

theorem of_slots (hbase : th'.stackBase = th.stackBase)
    (htop : th'.top = th.stackBase + l'.length) (hle : th'.top ≤ th'.stack.length)
    (hslots : ∀ i (hi : i < l'.length), th'.slot (th.stackBase + i) = l'[i])
    (hbelow : ∀ i < th.stackBase, th'.slot i = th.slot i) : Shows th₀ th' l' where
  base_le := by omega
  top_le := hle
  window := by
    apply List.ext_getElem
    · rw [length_window]
      omega
    · intro i hi hi'
      rw [getElem_window, hbase]
      exact hslots i hi'
  base := hbase.trans h.base
  below i hi := by
    rw [hbelow i (by rw [h.base]; exact hi)]
    exact h.below i hi

theorem push (v : TValue) : Shows th₀ (th.push v) (l ++ [v]) := by
  have htop := h.top_eq
  have hsize : th.top < (th.ensureStack (th.top + 1)).stack.length := by
    rw [length_ensureStack]
    have := grown_ge th.stack.length (th.top + 1)
    omega
  apply h.of_slots (th.stackBase_push v)
  · rw [top_push, htop, List.length_append, List.length_singleton, Nat.add_assoc]
  · rw [top_push, length_push]
    exact grown_ge _ _
  · intro i hi
    rw [List.length_append, List.length_singleton] at hi
    by_cases hlast : i < l.length
    · rw [th.slot_push v (by omega), List.getElem_append_left hlast]
      exact h.slot_eq hlast
    · obtain rfl : i = l.length := by omega
      rw [List.getElem_concat_length rfl, ← htop]
      exact ((th.ensureStack (th.top + 1)).slot_overwrite_of_lt hsize).trans
        (by rw [if_pos rfl, Option.getD_some])
  · intro i hi
    exact th.slot_push v (by omega)

theorem pop : Shows th₀ { th with top := th.stackBase + (l.length - 1) } l.dropLast := by
  have htop := h.top_eq
  have hle := h.top_le
  have hbase : ({ th with top := th.stackBase + (l.length - 1) } : Thread).stackBase =
      th.stackBase := rfl
  apply h.of_slots hbase
  · rw [List.length_dropLast]
  · show th.stackBase + (l.length - 1) ≤ th.stack.length
    omega
  · intro i hi
    rw [List.length_dropLast] at hi
    rw [List.getElem_dropLast]
    exact h.slot_eq (by omega)
  · exact fun i _ => rfl

theorem setAbsTop_iff (n : Nat) :
    Shows th₀ (th.setAbsTop (th.stackBase + n)) (ApiList.resize l n) ↔
      ∀ i, th.top ≤ i → i < th.stackBase + n → th.slot i = .nil := by
  have htop := h.top_eq
  have hlen : (ApiList.resize l n).length = n := by
    simp only [ApiList.resize, List.length_append, List.length_take, List.length_replicate]
    omega
  have hslot {i : Nat} (hi : i < n) : (th.setAbsTop (th.stackBase + n)).slot (th.stackBase + i) =
      th.slot (th.stackBase + i) := th.slot_setAbsTop (by omega)
  constructor
  · intro hshows i hle hi
    obtain ⟨k, rfl⟩ : ∃ k, i = th.stackBase + k := ⟨i - th.stackBase, by omega⟩
    have hk : k < (ApiList.resize l n).length := by omega
    have hread := hshows.slot_eq hk
    rw [stackBase_setAbsTop, hslot (by omega)] at hread
    rw [hread]
    simp only [ApiList.resize]
    rw [List.getElem_append_right (by rw [List.length_take]; omega), List.getElem_replicate]
  · intro hnil
    apply h.of_slots (th.stackBase_setAbsTop _)
    · rw [top_setAbsTop, hlen]
    · rw [top_setAbsTop, length_setAbsTop]
      exact grown_ge _ _
    · intro i hi
      rw [hlen] at hi
      rw [hslot hi]
      simp only [ApiList.resize]
      by_cases hin : i < l.length
      · rw [List.getElem_append_left (by rw [List.length_take]; omega), List.getElem_take]
        exact h.slot_eq hin
      · rw [List.getElem_append_right (by rw [List.length_take]; omega), List.getElem_replicate]
        exact hnil _ (by omega) (by omega)
    · intro i hi
      exact th.slot_setAbsTop (by omega)

theorem lower {n : Nat} (hn : n ≤ l.length) :
    Shows th₀ (th.setAbsTop (th.stackBase + n)) (ApiList.resize l n) :=
  (h.setAbsTop_iff n).mpr fun i hle hi => by
    have htop := h.top_eq
    omega

theorem remove {k : Nat} (hk : k < l.length) :
    Shows th₀ ((th.move (th.stackBase + k) (th.stackBase + k + 1) (l.length - 1 - k)).setAbsTop
      (th.stackBase + (l.length - 1))) (l.eraseIdx k) := by
  have htop := h.top_eq
  have hle := h.top_le
  have hlen := List.length_eraseIdx_of_lt hk
  generalize hth' : th.move (th.stackBase + k) (th.stackBase + k + 1) (l.length - 1 - k) = th'
  have hbase : th'.stackBase = th.stackBase := by rw [← hth']; rfl
  apply h.of_slots ((th'.stackBase_setAbsTop _).trans hbase)
  · rw [top_setAbsTop, hlen]
  · rw [top_setAbsTop, length_setAbsTop]
    exact grown_ge _ _
  · intro i hi
    rw [hlen] at hi
    rw [th'.slot_setAbsTop (by omega), ← hth', move, th.slot_overwrite_of_lt (by omega),
      List.getElem_eraseIdx]
    by_cases hlow : i < k
    · rw [if_neg (by omega), Option.getD_none, dif_pos hlow]
      exact h.slot_eq (by omega)
    · rw [if_pos (by omega), Option.getD_some, dif_neg hlow]
      rw [show th.stackBase + k + 1 + (th.stackBase + i - (th.stackBase + k)) =
        th.stackBase + (i + 1) by omega]
      exact h.slot_eq (by omega)
  · intro i hi
    rw [th'.slot_setAbsTop (by omega), ← hth']
    exact th.slot_move (by omega)

theorem insert {k : Nat} (hk : k < l.length) :
    Shows th₀ ((th.move (th.stackBase + k + 1) (th.stackBase + k) (l.length - 1 - k)).setSlot
      (th.stackBase + k) (th.slot (th.stackBase + (l.length - 1))))
      (l.dropLast.insertIdx k (l.getLastD .nil)) := by
  have htop := h.top_eq
  have hle := h.top_le
  have hlen : (l.dropLast.insertIdx k (l.getLastD .nil)).length = l.length := by
    rw [List.length_insertIdx, List.length_dropLast, if_pos (by omega)]
    omega
  have hlast : th.slot (th.stackBase + (l.length - 1)) = l.getLastD .nil := by
    rw [h.slot_eq (by omega), List.getLastD_eq_getLast?, List.getLast?_eq_getElem?,
      List.getElem?_eq_getElem (by omega), Option.getD_some]
  rw [hlast]
  have hbase : ((th.move (th.stackBase + k + 1) (th.stackBase + k) (l.length - 1 - k)).setSlot
      (th.stackBase + k) (l.getLastD .nil)).stackBase = th.stackBase := rfl
  apply h.of_slots hbase
  · rw [hlen]
    exact htop
  · rw [length_setSlot, length_move]
    exact hle
  · intro i hi
    rw [hlen] at hi
    rw [List.getElem_insertIdx]
    by_cases hik : i = k
    · subst hik
      rw [dif_neg (by omega), dif_pos rfl]
      exact (slot_overwrite_of_lt _ (by rw [length_move]; omega)).trans
        (by rw [if_pos rfl, Option.getD_some])
    · rw [slot_setSlot _ _ (by omega), move, th.slot_overwrite_of_lt (by omega)]
      by_cases hlow : i < k
      · rw [if_neg (by omega), Option.getD_none, dif_pos hlow, List.getElem_dropLast]
        exact h.slot_eq (by omega)
      · rw [if_pos (by omega), Option.getD_some, dif_neg hlow, dif_neg hik,
          List.getElem_dropLast]
        rw [show th.stackBase + k + (th.stackBase + i - (th.stackBase + k + 1)) =
          th.stackBase + (i - 1) by omega]
        exact h.slot_eq (by omega)
  · intro i hi
    rw [slot_setSlot _ _ (by omega)]
    exact th.slot_move (by omega)

end Shows

end Thread

/-! ## One operation -/

namespace OnStack

open Thread

variable {th₀ th : Thread} {l : List TValue}

theorem setAbsTop_ok (th : Thread) (n : Nat) (hle : th.top ≤ th.stack.length) :
    setAbsTop n th = .ok () (th.setAbsTop n) := by
  unfold setAbsTop
  rw [ensure_bind, get_bind, top_ensureStack]
  by_cases hn : n < th.top
  · have hgrown := le_grown th.stack.length n
    rw [if_pos hn, bind_of_ok (clear_ok (by rw [length_ensureStack]; omega))]
    rfl
  · rw [if_neg hn]
    have hkeep : (th.ensureStack n).fillNil n th.top = th.ensureStack n :=
      overwrite_none _ fun i => if_neg (by omega)
    rw [Thread.setAbsTop, hkeep]
    rfl

theorem settop_ok (h : Shows th₀ th l) {idx : Int} (hidx : 0 ≤ ApiList.position l idx) :
    settop idx th =
      .ok () (th.setAbsTop (th.stackBase + (ApiList.position l idx).toNat)) := by
  have hpos : (if idx < 0 then th.gettop + idx + 1 else idx) = ApiList.position l idx := by
    rw [h.gettop_eq]
    rfl
  unfold settop
  rw [get_bind]
  simp only [hpos]
  rw [if_neg (by omega), setAbsTop_ok th _ h.top_le]
  congr 2
  omega

theorem push_ok (th : Thread) (v : TValue) : push v th = .ok () (th.push v) := by
  unfold push
  rw [get_bind, ensure_bind, bind_of_ok (write_ok (by
    rw [length_ensureStack]
    exact grown_ge _ _))]
  rfl

theorem pop_ok (h : Shows th₀ th l) : pop th =
    .ok (l.getLastD .nil) { th with top := th.stackBase + (l.length - 1) } := by
  have htop := h.top_eq
  have hle := h.top_le
  unfold pop
  rw [get_bind]
  by_cases hempty : th.top ≤ th.stackBase
  · obtain rfl : l = [] := List.eq_nil_of_length_eq_zero (by omega)
    have hsame : ∀ n, n = th.top → ({ th with top := n } : Thread) = th := by
      rintro _ rfl
      rfl
    rw [if_pos hempty, hsame (th.stackBase + (([] : List TValue).length - 1)) htop.symm]
    rfl
  · have hlast : th.slot (th.top - 1) = l.getLastD .nil := by
      rw [show th.top - 1 = th.stackBase + (l.length - 1) by omega, h.slot_eq (by omega),
        List.getLastD_eq_getLast?, List.getLast?_eq_getElem?,
        List.getElem?_eq_getElem (by omega), Option.getD_some]
    have hread : read (th.top - 1) { th with top := th.top - 1 } =
        .ok (th.slot (th.top - 1)) { th with top := th.top - 1 } :=
      read_ok (show th.top - 1 < th.stack.length by omega)
    rw [if_neg hempty, change_bind]
    apply hread.trans
    rw [hlast, show th.top - 1 = th.stackBase + (l.length - 1) by omega]

theorem slotAt_ok (h : Shows th₀ th l) {idx : Int} (hidx : ApiList.Valid l idx) :
    slotAt idx th = .ok (th.stackBase + (ApiList.position l idx - 1).toNat) th := by
  obtain ⟨hpos, hle⟩ := hidx
  unfold slotAt
  rw [get_bind]
  simp only [h.absindex_eq, h.gettop_eq]
  rw [if_neg (by omega)]
  show EStateM.Result.ok _ th = _
  congr 1
  omega

theorem luaPop_ok (h : Shows th₀ th l) {n : Int} (hn : 0 ≤ n ∧ n ≤ l.length) :
    luaPop n th = .ok () (th.setAbsTop (th.stackBase + (l.length - n.toNat))) := by
  have hpos : ApiList.position l (l.length - n) = l.length - n := if_neg (by omega)
  unfold luaPop
  rw [get_bind, h.gettop_eq, settop_ok h (by omega), hpos]
  congr 3
  omega

theorem luaRemove_ok (h : Shows th₀ th l) {idx : Int} (hidx : ApiList.Valid l idx) :
    let k := (ApiList.position l idx - 1).toNat
    luaRemove idx th = .ok () ((th.move (th.stackBase + k) (th.stackBase + k + 1)
      (l.length - 1 - k)).setAbsTop (th.stackBase + (l.length - 1))) := by
  intro k
  have hk : k = (ApiList.position l idx - 1).toNat := rfl
  obtain ⟨hpos, hle⟩ := hidx
  have htop := h.top_eq
  have hsize := h.top_le
  unfold luaRemove
  rw [get_bind]
  simp only [h.absindex_eq, h.gettop_eq]
  rw [show ((th.stackBase : Int) + ApiList.position l idx - 1).toNat = th.stackBase + k by omega,
    show ((th.stackBase : Int) + ApiList.position l idx).toNat = th.stackBase + k + 1 by omega,
    show ((l.length : Int) - ApiList.position l idx).toNat = l.length - 1 - k by omega,
    bind_of_ok (copyUp_ok (by omega) (by omega) (Or.inl (by omega)))]
  unfold settop
  have hneg : ¬ ((l.length : Int) - 1 < 0) := by omega
  rw [get_bind]
  simp only [if_neg hneg]
  rw [setAbsTop_ok _ _ (by rw [length_move]; exact hsize)]
  congr 2
  show ((th.stackBase : Int) + (l.length - 1)).toNat = _
  omega

theorem luaInsert_ok (h : Shows th₀ th l) {idx : Int} (hidx : ApiList.Valid l idx) :
    let k := (ApiList.position l idx - 1).toNat
    luaInsert idx th = .ok () ((th.move (th.stackBase + k + 1) (th.stackBase + k)
      (l.length - 1 - k)).setSlot (th.stackBase + k)
        (th.slot (th.stackBase + (l.length - 1)))) := by
  intro k
  have hk : k = (ApiList.position l idx - 1).toNat := rfl
  obtain ⟨hpos, hle⟩ := hidx
  have htop := h.top_eq
  have hsize := h.top_le
  unfold luaInsert
  rw [get_bind]
  simp only [h.absindex_eq, h.gettop_eq]
  rw [show ((th.stackBase : Int) + ApiList.position l idx - 1).toNat = th.stackBase + k by omega,
    show ((th.stackBase : Int) + ApiList.position l idx).toNat = th.stackBase + k + 1 by omega,
    show ((l.length : Int) - ApiList.position l idx).toNat = l.length - 1 - k by omega,
    show ((th.stackBase : Int) + l.length - 1).toNat = th.stackBase + (l.length - 1) by omega,
    bind_of_ok (read_ok (by omega)),
    bind_of_ok (copyDown_ok (by omega) (by omega) (by omega))]
  exact write_ok (by rw [length_move]; omega)

theorem luaPushvalue_ok (moves : Thread → Bool) (h : Shows th₀ th l) {idx : Int}
    (hidx : ApiList.Valid l idx) (hstays : th.top < th.stack.length ∨ moves th = false) :
    luaPushvalue moves idx th =
      .ok () (th.push (l.getD (ApiList.position l idx - 1).toNat .nil)) := by
  obtain ⟨hpos, hle⟩ := id hidx
  have htop := h.top_eq
  have hsize := h.top_le
  have hk : (ApiList.position l idx - 1).toNat < l.length := by omega
  have hgrown := le_grown th.stack.length (th.top + 1)
  have hroom := grown_ge th.stack.length (th.top + 1)
  have hnomove : ¬ (th.stack.length < th.top + 1 ∧ moves th = true) := by
    rintro ⟨hfull, hmoves⟩
    rcases hstays with hstays | hstays
    · omega
    · rw [hstays] at hmoves
      cases hmoves
  unfold luaPushvalue
  rw [bind_of_ok (slotAt_ok h hidx), get_bind, ensure_bind, if_neg hnomove,
    bind_of_ok (read_ok (by rw [length_ensureStack]; omega)),
    bind_of_ok (write_ok (by rw [length_ensureStack]; omega)), slot_ensureStack,
    h.slot_eq hk, List.getD_eq_getElem?_getD, List.getElem?_eq_getElem hk]
  rfl

theorem luaPushvalue_moves {moves : Thread → Bool} (h : Shows th₀ th l) {idx : Int}
    (hidx : ApiList.Valid l idx) (hfull : th.stack.length ≤ th.top) (hmoves : moves th = true) :
    luaPushvalue moves idx th =
      .error (.outOfBounds (th.stackBase + (ApiList.position l idx - 1).toNat) 0)
        (th.ensureStack (th.top + 1)) := by
  have hmove : th.stack.length < th.top + 1 ∧ moves th = true := ⟨by omega, hmoves⟩
  unfold luaPushvalue
  rw [bind_of_ok (slotAt_ok h hidx), get_bind, ensure_bind, if_pos hmove]
  rfl

/--
The slots that `lua_settop` brings into the window hold nil, and the stack has
room, or does not move, where `lua_pushvalue` pushes.
-/
def Clean (moves : Thread → Bool) (th : Thread) : ApiOp → Prop
  | .settop idx => ∀ i, th.top ≤ i → (i : Int) < th.stackBase + th.absindex idx →
      th.slot i = .nil
  | .pushvalue _ => th.top < th.stack.length ∨ moves th = false
  | _ => True

theorem apiStep_of_ok (moves : Thread → Bool) {op : ApiOp} {vs : List TValue} {th' : Thread}
    (hop : apiOp moves op th = .ok vs th') : apiStep moves th op = .ok (th', vs) := by
  rw [apiStep, hop]

/-- An operation does what it does to the list, if and only if the slots are clean. -/
theorem apiStep_iff (moves : Thread → Bool) {op : ApiOp} (h : Shows th₀ th l)
    (hop : ApiList.Acceptable l op) :
    (∃ th', apiStep moves th op = .ok (th', (ApiList.step l op).2) ∧
      Shows th₀ th' (ApiList.step l op).1) ↔ Clean moves th op := by
  cases op with
  | push v =>
      have hok : apiOp moves (.push v) th = .ok [] (th.push v) := bind_of_ok (push_ok th v)
      exact ⟨fun _ => trivial, fun _ => ⟨_, apiStep_of_ok moves hok, h.push v⟩⟩
  | pop =>
      have hok : apiOp moves .pop th = .ok [l.getLastD .nil]
          { th with top := th.stackBase + (l.length - 1) } := bind_of_ok (pop_ok h)
      exact ⟨fun _ => trivial, fun _ => ⟨_, apiStep_of_ok moves hok, h.pop⟩⟩
  | settop idx =>
      have hok : apiOp moves (.settop idx) th = .ok []
          (th.setAbsTop (th.stackBase + (ApiList.position l idx).toNat)) :=
        bind_of_ok (settop_ok h hop)
      have hpos : 0 ≤ ApiList.position l idx := hop
      have hclean : Clean moves th (.settop idx) ↔ ∀ i, th.top ≤ i →
          i < th.stackBase + (ApiList.position l idx).toNat → th.slot i = .nil := by
        simp only [Clean, h.absindex_eq]
        refine forall₂_congr fun i _ => ?_
        rw [show (i : Int) < th.stackBase + ApiList.position l idx ↔
          i < th.stackBase + (ApiList.position l idx).toNat by omega]
      rw [hclean, apiStep_of_ok moves hok, ← h.setAbsTop_iff]
      constructor
      · rintro ⟨th', hth', hshows⟩
        cases hth'
        exact hshows
      · exact fun hshows => ⟨_, rfl, hshows⟩
  | luaPop n =>
      have hok : apiOp moves (.luaPop n) th = .ok []
          (th.setAbsTop (th.stackBase + (l.length - n.toNat))) := bind_of_ok (luaPop_ok h hop)
      exact ⟨fun _ => trivial, fun _ => ⟨_, apiStep_of_ok moves hok, h.lower (Nat.sub_le ..)⟩⟩
  | pushvalue idx =>
      constructor
      · rintro ⟨th', hth', -⟩
        by_contra hdirty
        obtain ⟨hfull, hmoves⟩ := not_or.mp hdirty
        have herr : apiOp moves (.pushvalue idx) th = .error _ _ :=
          bind_of_error (luaPushvalue_moves h hop (by omega) (by simpa using hmoves))
        rw [apiStep, herr] at hth'
        cases hth'
      · intro hstays
        have hok : apiOp moves (.pushvalue idx) th = .ok []
            (th.push (l.getD (ApiList.position l idx - 1).toNat .nil)) :=
          bind_of_ok (luaPushvalue_ok moves h hop hstays)
        exact ⟨_, apiStep_of_ok moves hok, h.push _⟩
  | insert idx =>
      obtain ⟨hpos, hle⟩ := id (show ApiList.Valid l idx from hop)
      have hok := bind_of_ok (f := fun _ => (pure [] : OnStack (List TValue)))
        (luaInsert_ok h hop)
      exact ⟨fun _ => trivial, fun _ =>
        ⟨_, apiStep_of_ok moves hok, h.insert (by omega)⟩⟩
  | remove idx =>
      obtain ⟨hpos, hle⟩ := id (show ApiList.Valid l idx from hop)
      have hok := bind_of_ok (f := fun _ => (pure [] : OnStack (List TValue)))
        (luaRemove_ok h hop)
      exact ⟨fun _ => trivial, fun _ =>
        ⟨_, apiStep_of_ok moves hok, h.remove (by omega)⟩⟩

/-! ## Runs of operations -/

/--
In every run of acceptable operations the window is the list that the same
operations make, if and only if every operation finds the slots clean.
-/
theorem api_stack_iff (moves : Thread → Bool) (th : Thread)
    (hbase : th.stackBase ≤ th.top) (htop : th.top ≤ th.stack.length) (ops : List ApiOp)
    (hops : Machine.Admits ApiList.step ApiList.Acceptable th.window ops) :
    Machine.Follows (Shows th) (apiStep moves) ApiList.step th th.window ops ↔
      Machine.Along (apiStep moves) (Clean moves) th ops := by
  have hstart : Shows th th th.window := ⟨hbase, htop, rfl, rfl, fun _ _ => rfl⟩
  apply Machine.follows_iff_along _ hops hstart
  intro s l op h hop
  exact apiStep_iff moves h hop

def oneValue : Thread :=
  { stack := [.boolean true, .integer 7, .nil, .nil, .nil], top := 2, stackBase := 1 }

/-- Indices of both signs; raising the top finds a nil. -/
theorem api_stack_iff_rotated :
    Machine.Follows (Shows oneValue) (apiStep fun _ => true) ApiList.step oneValue [.integer 7]
      [.push (.integer 8), .settop 3, .insert (-2), .pushvalue 1] := by
  have hacceptable : Machine.Admits ApiList.step ApiList.Acceptable oneValue.window
      [.push (.integer 8), .settop 3, .insert (-2), .pushvalue 1] := by
    simp only [Machine.Admits, ApiList.step, ApiList.Acceptable, ApiList.Valid, ApiList.position]
    decide
  apply (api_stack_iff (fun _ => true) oneValue (by decide) (by decide) _ hacceptable).mpr
  let pushed : Thread :=
    { oneValue with stack := [.boolean true, .integer 7, .integer 8, .nil, .nil], top := 3 }
  let inserted : Thread :=
    { oneValue with stack := [.boolean true, .integer 7, .nil, .integer 8, .nil], top := 4 }
  let copied : Thread :=
    { oneValue with
      stack := [.boolean true, .integer 7, .nil, .integer 8, .integer 7], top := 5 }
  have hraised : Clean (fun _ => true) pushed (.settop 3) := by
    intro i hle hlt
    change 3 ≤ i at hle
    change (i : Int) < 1 + 3 at hlt
    obtain rfl : i = 3 := by omega
    rfl
  have hpushed : apiStep (fun _ => true) oneValue (.push (.integer 8)) = .ok (pushed, []) := rfl
  have hsettop : apiStep (fun _ => true) pushed (.settop 3) =
      .ok ({ pushed with top := 4 }, []) := rfl
  have hinserted : apiStep (fun _ => true) { pushed with top := 4 } (.insert (-2)) =
      .ok (inserted, []) := rfl
  have hcopied : apiStep (fun _ => true) inserted (.pushvalue 1) = .ok (copied, []) := rfl
  have hroom : Clean (fun _ => true) inserted (.pushvalue 1) := Or.inl (by decide)
  exact .cons trivial hpushed (.cons hraised hsettop (.cons trivial hinserted
    (.cons hroom hcopied trivial)))

/-- A popped value is back when `lua_settop` raises the top. -/
theorem settop_shows_popped :
    ¬ Machine.Follows (Shows oneValue) (apiStep fun _ => false) ApiList.step oneValue
      oneValue.window [.push (.integer 8), .pop, .settop 2] := by
  intro h
  obtain ⟨th', hrun, hshows⟩ := h.run
  have hend : Machine.run (apiStep fun _ => false) oneValue
      [.push (.integer 8), .pop, .settop 2] =
      .ok ({ oneValue with stack := [.boolean true, .integer 7, .integer 8, .nil, .nil], top := 3 },
        [.integer 8]) := rfl
  rw [hend] at hrun
  cases hrun
  exact absurd hshows.window (by decide)

end OnStack

end Luatier
