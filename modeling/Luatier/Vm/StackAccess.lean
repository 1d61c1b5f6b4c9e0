import Luatier.Lib.Cells
import Luatier.Vm.Stack

/-!
# Checked accesses to the stack

The source indexes the stack without looking at its size.  Here an index that
is not below the size stops the program.  The loops over the stack do what the
operations of whole ranges do, where every index is below the size.
-/

namespace Luatier

open Cells

/-- Why running code stops. -/
inductive Stop where
  | raised (e : String)
  | outOfBounds (index size : Nat)
  deriving DecidableEq, Repr

/-- Code that works on the stack of one thread. -/
abbrev OnStack (α : Type) := EStateM Stop Thread α

namespace OnStack

def read (i : Nat) : OnStack TValue := fun th =>
  if i < th.stack.length then .ok (th.slot i) th
  else .error (.outOfBounds i th.stack.length) th

def write (i : Nat) (v : TValue) : OnStack Unit := fun th =>
  if i < th.stack.length then .ok () (th.setSlot i v)
  else .error (.outOfBounds i th.stack.length) th

def change (f : Thread → Thread) : OnStack Unit := fun th => .ok () (f th)

def ensure (n : Nat) : OnStack Unit := change (·.ensureStack n)

def copySlot (dest src : Nat) : OnStack Unit := do
  let v ← read src
  write dest v

/-- `for (i = 0; i < n; ++i) stack[dest + i] = stack[src + i];` -/
def copyUp (dest src n : Nat) : OnStack Unit :=
  ascending (fun i => copySlot (dest + i) (src + i)) 0 n

/-- `for (i = n - 1; i >= 0; --i) stack[dest + i] = stack[src + i];` -/
def copyDown (dest src n : Nat) : OnStack Unit :=
  descending (fun i => copySlot (dest + i) (src + i)) n

/-- `for (i = start; i < stop; ++i) stack[i] = nil;` -/
def clear (start stop : Nat) : OnStack Unit :=
  ascending (fun i => write i .nil) start (stop - start)

def writeAll (dest : Nat) : List TValue → OnStack Unit
  | [] => pure ()
  | v :: vs => do
      write dest v
      writeAll (dest + 1) vs

def readAll (start : Nat) : Nat → OnStack (List TValue)
  | 0 => pure []
  | n + 1 => do
      let v ← read start
      let vs ← readAll (start + 1) n
      pure (v :: vs)

end OnStack

/-! ## Sizes -/

namespace Thread

variable (th : Thread)

/-- The size of a stack of `size` slots after `ensure_stack(n)`. -/
def grown (size n : Nat) : Nat := if size < n then n + 64 else size

theorem le_grown (size n : Nat) : size ≤ grown size n := by
  unfold grown
  split <;> omega

theorem grown_ge (size n : Nat) : n ≤ grown size n := by
  unfold grown
  split <;> omega

@[simp] theorem length_overwrite (f : Nat → Option TValue) :
    (th.overwrite f).stack.length = th.stack.length :=
  List.length_mapIdx

@[simp] theorem length_setSlot (j : Nat) (v : TValue) :
    (th.setSlot j v).stack.length = th.stack.length :=
  th.length_overwrite _

@[simp] theorem length_fillNil (start stop : Nat) :
    (th.fillNil start stop).stack.length = th.stack.length :=
  th.length_overwrite _

@[simp] theorem length_move (dest src n : Nat) :
    (th.move dest src n).stack.length = th.stack.length :=
  th.length_overwrite _

@[simp] theorem length_ensureStack (n : Nat) :
    (th.ensureStack n).stack.length = grown th.stack.length n := by
  unfold ensureStack grown
  split
  · rw [List.length_append, List.length_replicate]
    omega
  · rfl

@[simp] theorem length_setAbsTop (n : Nat) :
    (th.setAbsTop n).stack.length = grown th.stack.length n := by
  simp [setAbsTop]

@[simp] theorem length_push (v : TValue) :
    (th.push v).stack.length = grown th.stack.length (th.top + 1) := by
  simp [push]

/-! ## Overwriting -/

theorem slot_overwrite_of_lt {f : Nat → Option TValue} {i : Nat}
    (hi : i < th.stack.length) : (th.overwrite f).slot i = (f i).getD (th.slot i) := by
  simp [slot, overwrite, hi]

theorem overwrite_overwrite (f g : Nat → Option TValue) :
    (th.overwrite f).overwrite g = th.overwrite fun i => (g i).or (f i) := by
  simp only [overwrite, List.mapIdx_mapIdx]
  congr
  funext i v
  cases g i <;> rfl

theorem overwrite_congr {f g : Nat → Option TValue}
    (h : ∀ i < th.stack.length, f i = g i) : th.overwrite f = th.overwrite g := by
  have hlist : th.stack.mapIdx (fun i v => (f i).getD v) =
      th.stack.mapIdx fun i v => (g i).getD v := by
    apply List.ext_getElem
    · simp
    · intro i hi hi'
      simp only [List.length_mapIdx] at hi
      simp [h i hi]
  simp only [overwrite, hlist]

theorem setSlot_overwrite {f : Nat → TValue} {lo k : Nat} (hk : lo ≤ k) :
    (th.overwrite fun i => if lo ≤ i ∧ i < k then some (f i) else none).setSlot k (f k) =
      th.overwrite fun i => if lo ≤ i ∧ i < k + 1 then some (f i) else none := by
  rw [setSlot, overwrite_overwrite]
  apply overwrite_congr
  intro i _
  by_cases hi : i = k
  · simp [hi, hk]
  · by_cases hin : lo ≤ i ∧ i < k
    · simp [hi, hin, show i < k + 1 by omega]
    · have hout : ¬ (lo ≤ i ∧ i < k + 1) := by omega
      rw [if_neg hin, if_neg hout]
      simp [hi]

theorem overwrite_self {f : Nat → Option TValue}
    (h : ∀ i < th.stack.length, (f i).getD (th.slot i) = th.slot i) :
    th.overwrite f = th := by
  have hlist : th.stack.mapIdx (fun i v => (f i).getD v) = th.stack := by
    apply List.ext_getElem
    · simp
    · intro i hi hi'
      simpa [slot, hi'] using h i hi'
  simp only [overwrite, hlist]

theorem overwrite_none {f : Nat → Option TValue} (h : ∀ i, f i = none) :
    th.overwrite f = th := by
  apply overwrite_self
  intro i _
  rw [h i]
  rfl

theorem move_self (dest n : Nat) : th.move dest dest n = th := by
  apply overwrite_self
  intro i _
  split
  · rw [Option.getD_some, show dest + (i - dest) = i by omega]
  · rfl

end Thread

/-! ## One access -/

namespace OnStack

variable {th : Thread} {i n dest src start stop : Nat} {v : TValue}

theorem get_bind {α : Type} (f : Thread → OnStack α) (th : Thread) :
    ((get : OnStack Thread) >>= f) th = f th th := rfl

theorem ensure_bind {α : Type} (n : Nat) (f : Unit → OnStack α) (th : Thread) :
    (ensure n >>= f) th = f () (th.ensureStack n) := rfl

theorem change_bind {α : Type} (g : Thread → Thread) (f : Unit → OnStack α) (th : Thread) :
    (change g >>= f) th = f () (g th) := rfl

theorem read_ok (hi : i < th.stack.length) : read i th = .ok (th.slot i) th := if_pos hi

theorem write_ok (hi : i < th.stack.length) : write i v th = .ok () (th.setSlot i v) :=
  if_pos hi

theorem write_outOfBounds (hi : th.stack.length ≤ i) :
    write i v th = .error (.outOfBounds i th.stack.length) th :=
  if_neg (by omega)

theorem copySlot_ok (hdest : dest < th.stack.length) (hsrc : src < th.stack.length) :
    copySlot dest src th = .ok () (th.setSlot dest (th.slot src)) := by
  unfold copySlot
  rw [bind_of_ok (read_ok hsrc), write_ok hdest]

theorem eq_of_returns {m : OnStack Unit} {th' : Thread}
    (h : Returns m th fun _ s => s = th') : m th = .ok () th' := by
  obtain ⟨_, s, hm, rfl⟩ := returns_iff.mp h
  exact hm

theorem returns_of_eq {m : OnStack Unit} {th' : Thread} (h : m th = .ok () th') :
    Returns m th fun _ s => s = th' :=
  returns_iff.mpr ⟨(), th', h, rfl⟩

/-! ## Loops -/

theorem ascending_overwrite (dest : Nat) (f : Nat → TValue) {body : Nat → OnStack Unit}
    (hbody : ∀ k t, start ≤ k → k < start + n →
      t = th.overwrite (fun i =>
        if dest + start ≤ i ∧ i < dest + k then some (f i) else none) →
      body k t = .ok () (t.setSlot (dest + k) (f (dest + k)))) :
    ascending body start n th = .ok () (th.overwrite fun i =>
      if dest + start ≤ i ∧ i < dest + start + n then some (f i) else none) := by
  apply eq_of_returns
  have hloop := Ends.ascending body (n := n) (i := start) (E := fun _ _ => False)
    (P := fun k t => t = th.overwrite fun i =>
      if dest + start ≤ i ∧ i < dest + k then some (f i) else none)
    (s := th) (th.overwrite_none fun i => if_neg (by omega)).symm
  rw [show dest + start + n = dest + (start + n) by omega]
  apply hloop
  intro k t hk hkn ht
  apply (returns_of_eq (hbody k t hk hkn ht)).imp
  rintro _ t' rfl
  rw [ht]
  exact th.setSlot_overwrite (by omega)

theorem descending_overwrite (dest : Nat) (f : Nat → TValue) {body : Nat → OnStack Unit}
    (hbody : ∀ k t, k < n →
      t = th.overwrite (fun i =>
        if dest + (k + 1) ≤ i ∧ i < dest + n then some (f i) else none) →
      body k t = .ok () (t.setSlot (dest + k) (f (dest + k)))) :
    descending body n th = .ok () (th.overwrite fun i =>
      if dest ≤ i ∧ i < dest + n then some (f i) else none) := by
  apply eq_of_returns
  have hloop := Ends.descending body (n := n) (E := fun _ _ => False)
    (P := fun k t => t = th.overwrite fun i =>
      if dest + k ≤ i ∧ i < dest + n then some (f i) else none)
    (s := th) (th.overwrite_none fun i => if_neg (by omega)).symm
  apply hloop
  intro k t hkn ht
  apply (returns_of_eq (hbody k t hkn ht)).imp
  rintro _ t' rfl
  rw [ht, Thread.setSlot, Thread.overwrite_overwrite]
  apply Thread.overwrite_congr
  intro i _
  by_cases hi : i = dest + k
  · simp [hi, hkn]
  · by_cases hin : dest + (k + 1) ≤ i ∧ i < dest + n
    · simp [hi, hin, show dest + k ≤ i by omega]
    · simp [hi, hin, show ¬ (dest + k ≤ i ∧ i < dest + n) by omega]

theorem copyUp_ok (hdest : dest + n ≤ th.stack.length) (hsrc : src + n ≤ th.stack.length)
    (hdisjoint : dest ≤ src ∨ src + n ≤ dest) :
    copyUp dest src n th = .ok () (th.move dest src n) := by
  unfold copyUp
  rw [ascending_overwrite dest fun i => th.slot (src + (i - dest))]
  · rfl
  · rintro k t - hk ht
    have hlen : t.stack.length = th.stack.length := by rw [ht, Thread.length_overwrite]
    rw [copySlot_ok (by omega) (by omega), Nat.add_sub_cancel_left]
    congr 2
    rw [ht]
    exact th.slot_overwrite (if_neg (by omega))

theorem copyDown_ok (hdest : dest + n ≤ th.stack.length) (hsrc : src + n ≤ th.stack.length)
    (hle : src ≤ dest) : copyDown dest src n th = .ok () (th.move dest src n) := by
  unfold copyDown
  rw [descending_overwrite dest fun i => th.slot (src + (i - dest))]
  · rfl
  · rintro k t hk ht
    have hlen : t.stack.length = th.stack.length := by rw [ht, Thread.length_overwrite]
    rw [copySlot_ok (by omega) (by omega), Nat.add_sub_cancel_left]
    congr 2
    rw [ht]
    exact th.slot_overwrite (if_neg (by omega))

theorem clear_ok (hstop : stop ≤ th.stack.length) :
    clear start stop th = .ok () (th.fillNil start stop) := by
  unfold clear
  rw [ascending_overwrite 0 fun _ => .nil]
  · simp only [Nat.zero_add, Thread.fillNil]
    congr 1
    apply Thread.overwrite_congr
    intro i _
    congr 1
    simp
    omega
  · intro k t hstart hk ht
    have hlen : t.stack.length = th.stack.length := by rw [ht, Thread.length_overwrite]
    rw [Nat.zero_add]
    exact write_ok (by omega)

theorem readAll_ok : ∀ {n start : Nat}, start + n ≤ th.stack.length →
    readAll start n th = .ok ((List.range n).map fun i => th.slot (start + i)) th := by
  intro n
  induction n with
  | zero => exact fun _ => rfl
  | succ n ih =>
      intro start h
      unfold readAll
      rw [bind_of_ok (read_ok (by omega)), bind_of_ok (ih (by omega))]
      show EStateM.Result.ok _ th = _
      rw [List.range_succ_eq_map, List.map_cons, List.map_map]
      congr 3
      funext i
      show th.slot (start + 1 + i) = th.slot (start + (i + 1))
      rw [Nat.add_assoc, Nat.add_comm 1 i]

theorem writeAll_ok : ∀ {vs : List TValue} {dest : Nat} {th : Thread},
    dest + vs.length ≤ th.stack.length →
    writeAll dest vs th = .ok () (th.overwrite fun i =>
      if dest ≤ i then vs[i - dest]? else none) := by
  intro vs
  induction vs with
  | nil =>
      intro dest th _
      rw [th.overwrite_none fun i => by simp]
      rfl
  | cons v vs ih =>
      intro dest th h
      rw [List.length_cons] at h
      unfold writeAll
      rw [bind_of_ok (write_ok (by omega)), ih (by simp; omega), Thread.setSlot,
        Thread.overwrite_overwrite]
      congr 1
      apply Thread.overwrite_congr
      intro i _
      by_cases hi : i = dest
      · simp [hi]
      · by_cases hle : dest ≤ i
        · rw [if_pos (by omega), if_pos hle, if_neg hi, Option.or_none,
            show i - dest = i - (dest + 1) + 1 by omega, List.getElem?_cons_succ]
        · rw [if_neg (by omega), if_neg hle, if_neg hi, Option.or_none]

end OnStack

end Luatier
