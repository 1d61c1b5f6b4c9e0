import Luatier.Runtime.State

/-!
# The stack of a thread

Writes beyond the end of a stack are undefined in the source and do nothing
here; every write is preceded by `ensureStack` where the source relies on it.
-/

namespace Luatier

namespace Thread

variable {th : Thread}

def slot (th : Thread) (i : Nat) : TValue := th.stack.getD i .nil

def overwrite (th : Thread) (f : Nat → Option TValue) : Thread :=
  { th with stack := th.stack.mapIdx fun i v => (f i).getD v }

def ensureStack (th : Thread) (n : Nat) : Thread :=
  if th.stack.length < n then
    { th with stack := th.stack ++
        List.replicate (n + 64 - th.stack.length) .nil }
  else th

def fillNil (th : Thread) (start stop : Nat) : Thread :=
  th.overwrite fun i => if start ≤ i ∧ i < stop then some .nil else none

def setSlot (th : Thread) (j : Nat) (v : TValue) : Thread :=
  th.overwrite fun i => if i = j then some v else none

def move (th : Thread) (dest src n : Nat) : Thread :=
  th.overwrite fun i =>
    if dest ≤ i ∧ i < dest + n then some (th.slot (src + (i - dest))) else none

def setAbsTop (th : Thread) (absIdx : Nat) : Thread :=
  { (th.ensureStack absIdx).fillNil absIdx th.top with top := absIdx }

def push (th : Thread) (v : TValue) : Thread :=
  { (th.ensureStack (th.top + 1)).setSlot th.top v with top := th.top + 1 }

def window (th : Thread) : List TValue :=
  (List.range (th.top - th.stackBase)).map fun i => th.slot (th.stackBase + i)

/-- `settop(0)`, and a push for each value. -/
def setWindow (th : Thread) (vs : List TValue) : Thread :=
  vs.foldl push (th.setAbsTop th.stackBase)

/-! ## What the operations leave alone -/

theorem slot_overwrite (th : Thread) {f : Nat → Option TValue} {i : Nat}
    (h : f i = none) : (th.overwrite f).slot i = th.slot i := by
  simp only [slot, overwrite, List.getD_eq_getElem?_getD, List.getElem?_mapIdx, h]
  cases th.stack[i]? <;> rfl

theorem slot_ensureStack (th : Thread) (n i : Nat) :
    (th.ensureStack n).slot i = th.slot i := by
  unfold ensureStack
  split
  · simp only [slot, List.getD_eq_getElem?_getD, List.getElem?_append]
    split
    · rfl
    · rename_i hi
      rw [List.getElem?_eq_none (by omega : th.stack.length ≤ i),
        List.getElem?_replicate]
      split <;> rfl
  · rfl

theorem slot_fillNil (th : Thread) {start stop i : Nat} (h : i < start) :
    (th.fillNil start stop).slot i = th.slot i :=
  th.slot_overwrite (if_neg (by omega))

theorem slot_setSlot (th : Thread) {j i : Nat} (v : TValue) (h : i ≠ j) :
    (th.setSlot j v).slot i = th.slot i :=
  th.slot_overwrite (if_neg h)

theorem slot_move (th : Thread) {dest src n i : Nat} (h : i < dest) :
    (th.move dest src n).slot i = th.slot i :=
  th.slot_overwrite (if_neg (by omega))

theorem slot_setAbsTop (th : Thread) {absIdx i : Nat} (h : i < absIdx) :
    (th.setAbsTop absIdx).slot i = th.slot i :=
  ((th.ensureStack absIdx).slot_fillNil h).trans (th.slot_ensureStack absIdx i)

theorem slot_push (th : Thread) (v : TValue) {i : Nat} (h : i < th.top) :
    (th.push v).slot i = th.slot i :=
  ((th.ensureStack (th.top + 1)).slot_setSlot v (by omega)).trans
    (th.slot_ensureStack _ i)

@[simp] theorem frames_ensureStack (th : Thread) (n : Nat) :
    (th.ensureStack n).frames = th.frames := by
  unfold ensureStack
  split <;> rfl

@[simp] theorem stackBase_ensureStack (th : Thread) (n : Nat) :
    (th.ensureStack n).stackBase = th.stackBase := by
  unfold ensureStack
  split <;> rfl

@[simp] theorem nny_ensureStack (th : Thread) (n : Nat) :
    (th.ensureStack n).nny = th.nny := by
  unfold ensureStack
  split <;> rfl

@[simp] theorem nCcalls_ensureStack (th : Thread) (n : Nat) :
    (th.ensureStack n).nCcalls = th.nCcalls := by
  unfold ensureStack
  split <;> rfl

@[simp] theorem status_ensureStack (th : Thread) (n : Nat) :
    (th.ensureStack n).status = th.status := by
  unfold ensureStack
  split <;> rfl

@[simp] theorem top_ensureStack (th : Thread) (n : Nat) :
    (th.ensureStack n).top = th.top := by
  unfold ensureStack
  split <;> rfl

@[simp] theorem frames_setAbsTop (th : Thread) (n : Nat) :
    (th.setAbsTop n).frames = th.frames := frames_ensureStack th n

@[simp] theorem stackBase_setAbsTop (th : Thread) (n : Nat) :
    (th.setAbsTop n).stackBase = th.stackBase := stackBase_ensureStack th n

@[simp] theorem top_setAbsTop (th : Thread) (n : Nat) :
    (th.setAbsTop n).top = n := rfl

@[simp] theorem frames_push (th : Thread) (v : TValue) :
    (th.push v).frames = th.frames := frames_ensureStack th _

@[simp] theorem stackBase_push (th : Thread) (v : TValue) :
    (th.push v).stackBase = th.stackBase := stackBase_ensureStack th _

@[simp] theorem top_push (th : Thread) (v : TValue) :
    (th.push v).top = th.top + 1 := rfl

end Thread

def Object.mapThread (f : Thread → Thread) : Object → Object
  | .thread th => .thread (f th)
  | o => o

namespace State

def updateThread (L : State) (a : Addr) (f : Thread → Thread) : State :=
  L.updateCell a (Object.mapThread f)

def currentThread? (L : State) : Option (Addr × Thread) :=
  L.current.bind fun a => (L.thread? a).map (a, ·)

def withCurrent (L : State) (f : Thread → Thread) : State :=
  match L.current with
  | some a => L.updateThread a f
  | none => L

def gettop (L : State) : Nat :=
  ((L.current.bind L.thread?).map fun th => th.top - th.stackBase).getD 0

theorem object?_updateThread (L : State) (a b : Addr) (f : Thread → Thread) :
    (L.updateThread a f).object? b =
      if b = a then (L.object? b).map (Object.mapThread f) else L.object? b :=
  Heap.object?_update L.heap (Object.mapThread f) a b

theorem thread?_updateThread (L : State) (a : Addr) (f : Thread → Thread) :
    (L.updateThread a f).thread? a = (L.thread? a).map f := by
  simp only [thread?, object?_updateThread, if_true]
  cases L.object? a with
  | none => rfl
  | some o => cases o <;> rfl

theorem thread?_updateThread_ne (L : State) {a b : Addr} (f : Thread → Thread)
    (h : b ≠ a) : (L.updateThread a f).thread? b = L.thread? b := by
  simp only [thread?, object?_updateThread, if_neg h]

theorem proto?_updateThread (L : State) (a : Addr) (f : Thread → Thread) :
    (L.updateThread a f).proto? = L.proto? := by
  funext b
  simp only [proto?, object?_updateThread]
  by_cases hb : b = a
  · rw [if_pos hb]
    cases L.object? b with
    | none => rfl
    | some o => cases o <;> rfl
  · rw [if_neg hb]

theorem closure?_updateThread (L : State) (a : Addr) (f : Thread → Thread) :
    (L.updateThread a f).closure? = L.closure? := by
  funext b
  simp only [closure?, object?_updateThread]
  by_cases hb : b = a
  · rw [if_pos hb]
    cases L.object? b with
    | none => rfl
    | some o => cases o <;> rfl
  · rw [if_neg hb]

theorem upval?_updateThread (L : State) (a : Addr) (f : Thread → Thread) :
    (L.updateThread a f).upval? = L.upval? := by
  funext b
  simp only [upval?, object?_updateThread]
  by_cases hb : b = a
  · rw [if_pos hb]
    cases L.object? b with
    | none => rfl
    | some o => cases o <;> rfl
  · rw [if_neg hb]

end State

end Luatier
