import Mathlib.Data.List.Range
import Mathlib.Data.List.Perm.Basic
import Luatier.Frontend.Ast

/-!
# Linking gotos to labels

What the lowering does with gotos and labels, without the code.  Locals, gotos
and labels are known by their number in source order.  A goto is resolved when
its label is known, and waits for the end of a block with the label otherwise.
-/

namespace Luatier

inductive LabelEvent where
  | openScope
  | closeScope
  | declare (count : Nat)
  | enter (names : List Name)
  | leave
  | label (name : Name) (last : Bool)
  | goto (name : Name)

/-- A block, with the labels it has defined so far and its locals at entry. -/
structure OpenBlock where
  names : List Name
  defined : List (Name × Nat)
  before : Nat
  entry : List Nat

structure GotoEntry where
  seen : Nat
  scope : List Nat
  deriving DecidableEq, Repr

structure Linker where
  scope : List Nat := []
  ndecls : Nat := 0
  saved : List Nat := []
  blocks : List OpenBlock := []
  waiting : List (Name × Nat) := []
  resolved : List (Nat × Nat) := []
  gotos : List GotoEntry := []
  labelScopes : List (List Nat) := []

namespace Linker

variable (a : Linker)

/-- The label of that name in the innermost block that has already defined one. -/
def seen (name : Name) : Option Nat := a.blocks.findSome? (·.defined.lookup name)

/-- What a goto may jump to at once; its own block comes before the others. -/
def known (name : Name) : Option Nat :=
  match a.blocks with
  | b :: _ =>
      if b.names.contains name && !(b.defined.lookup name).isSome then none else a.seen name
  | [] => a.seen name

def declare (count : Nat) : Linker :=
  { a with scope := a.scope ++ List.range' a.ndecls count, ndecls := a.ndecls + count }

theorem declare_zero : a.declare 0 = a := by
  rw [declare, List.range'_zero, List.append_nil]
  rfl

theorem declare_declare (m n : Nat) : (a.declare m).declare n = a.declare (m + n) := by
  show ({ a with scope := _, ndecls := _ } : Linker) = { a with scope := _, ndecls := _ }
  congr 1
  · show a.scope ++ _ ++ List.range' (a.ndecls + m) n = _
    rw [List.append_assoc, List.range'_append_1]
  · exact Nat.add_assoc _ _ _

def step : LabelEvent → Linker → Option Linker
  | .openScope, a => some { a with saved := a.scope.length :: a.saved }
  | .closeScope, a =>
      match a.saved with
      | n :: saved => some { a with scope := a.scope.take n, saved }
      | [] => none
  | .declare count, a => some (a.declare count)
  | .enter names, a =>
      some { a with blocks := ⟨names, [], a.waiting.length, a.scope⟩ :: a.blocks }
  | .leave, a =>
      match a.blocks with
      | b :: blocks =>
          let opened := a.waiting.drop b.before
          some { a with
            blocks
            waiting := a.waiting.take b.before ++
              opened.filter fun w => !(b.defined.lookup w.1).isSome
            resolved := a.resolved ++
              opened.filterMap fun w => (b.defined.lookup w.1).map (w.2, ·) }
      | [] => none
  | .label name last, a =>
      match a.blocks with
      | b :: blocks =>
          if (b.defined.lookup name).isSome then none
          else
            let b := { b with defined := (name, a.labelScopes.length) :: b.defined }
            some { a with
              blocks := b :: blocks
              labelScopes := a.labelScopes ++ [if last then b.entry else a.scope] }
      | [] => none
  | .goto name, a =>
      let i := a.gotos.length
      let a : Linker := { a with gotos := a.gotos ++ [⟨a.labelScopes.length, a.scope⟩] }
      match a.known name with
      | some k => some { a with resolved := a.resolved ++ [(i, k)] }
      | none => some { a with waiting := a.waiting ++ [(name, i)] }

theorem step_goto_known {a : Linker} {name : Name} {k : Nat} (h : a.known name = some k) :
    step (.goto name) a = some { a with
      gotos := a.gotos ++ [⟨a.labelScopes.length, a.scope⟩]
      resolved := a.resolved ++ [(a.gotos.length, k)] } := by
  have hknown : ({ a with
      gotos := a.gotos ++ [⟨a.labelScopes.length, a.scope⟩] } : Linker).known name = some k := h
  rw [step, hknown]

theorem step_goto_waits {a : Linker} {name : Name} (h : a.known name = none) :
    step (.goto name) a = some { a with
      gotos := a.gotos ++ [⟨a.labelScopes.length, a.scope⟩]
      waiting := a.waiting ++ [(name, a.gotos.length)] } := by
  have hknown : ({ a with
      gotos := a.gotos ++ [⟨a.labelScopes.length, a.scope⟩] } : Linker).known name = none := h
  rw [step, hknown]

def run : List LabelEvent → Linker → Option Linker
  | [], a => some a
  | e :: es, a => (step e a).bind (run es)

theorem run_append (es fs : List LabelEvent) (a : Linker) :
    run (es ++ fs) a = (run es a).bind (run fs) := by
  induction es generalizing a with
  | nil => rfl
  | cons e es ih =>
      rw [List.cons_append, run, run, Option.bind_assoc]
      exact congrArg _ (funext ih)

theorem getElem?_of_grown {β : Type} {xs ys : List β} (h : xs <+: ys) {i : Nat} {x : β}
    (hx : xs[i]? = some x) : ys[i]? = some x := by
  obtain ⟨zs, rfl⟩ := h
  exact List.getElem?_append_left (List.getElem?_eq_some_iff.mp hx).1 ▸ hx

def Sound : Prop :=
  (a.resolved.map Prod.fst ++ a.waiting.map Prod.snd).Perm
    (List.range a.gotos.length)

private theorem split_perm (f : Name → Option Nat) (ws : List (Name × Nat)) :
    ((ws.filterMap fun w => (f w.1).map (w.2, ·)).map Prod.fst ++
      (ws.filter fun w => !(f w.1).isSome).map Prod.snd).Perm (ws.map Prod.snd) := by
  induction ws with
  | nil => exact List.Perm.refl _
  | cons w ws ih =>
      cases hw : f w.1 with
      | some k =>
          simp only [List.filterMap_cons, hw, Option.map_some, List.map_cons,
            List.cons_append, List.filter_cons, Option.isSome_some, Bool.not_true,
            Bool.false_eq_true, if_false]
          exact ih.cons w.2
      | none =>
          simp only [List.filterMap_cons, hw, Option.map_none, List.filter_cons,
            Option.isSome_none, Bool.not_false, if_true, List.map_cons]
          exact List.perm_middle.trans (ih.cons w.2)

theorem step_sound {e : LabelEvent} {a a' : Linker} (h : a.Sound)
    (hstep : step e a = some a') : a'.Sound := by
  cases e with
  | openScope => cases hstep; exact h
  | declare count => cases hstep; exact h
  | enter names => cases hstep; exact h
  | closeScope =>
      rw [step] at hstep
      cases hsaved : a.saved with
      | nil => rw [hsaved] at hstep; exact nomatch hstep
      | cons n saved => rw [hsaved] at hstep; cases hstep; exact h
  | label name last =>
      rw [step] at hstep
      cases hblocks : a.blocks with
      | nil => rw [hblocks] at hstep; exact nomatch hstep
      | cons b blocks =>
          rw [hblocks] at hstep
          dsimp only at hstep
          split at hstep
          · exact nomatch hstep
          · cases hstep; exact h
  | leave =>
      rw [step] at hstep
      cases hblocks : a.blocks with
      | nil => rw [hblocks] at hstep; exact nomatch hstep
      | cons b blocks =>
          rw [hblocks] at hstep
          cases hstep
          have hsplit := split_perm (fun n => b.defined.lookup n) (a.waiting.drop b.before)
          have hwaiting : (a.waiting.take b.before).map Prod.snd ++
              (a.waiting.drop b.before).map Prod.snd = a.waiting.map Prod.snd := by
            rw [← List.map_append, List.take_append_drop]
          rw [Sound, ← hwaiting] at h
          refine List.Perm.trans ?_ h
          rw [List.map_append, List.map_append, List.append_assoc]
          refine List.Perm.append_left _ ?_
          refine (List.perm_append_comm_assoc _ _ _).trans ?_
          exact List.Perm.append_left _ hsplit
  | goto name =>
      have hone : (a.resolved.map Prod.fst ++ a.waiting.map Prod.snd ++
          [a.gotos.length]).Perm (List.range (a.gotos.length + 1)) := by
        rw [List.range_succ]
        exact List.Perm.append_right _ h
      rw [step] at hstep
      split at hstep
      · cases hstep
        rw [Sound, List.length_append, List.map_append, List.append_assoc]
        refine List.Perm.trans ?_ hone
        rw [List.append_assoc]
        exact List.Perm.append_left _ List.perm_append_comm
      · cases hstep
        rw [Sound, List.length_append, List.map_append, ← List.append_assoc]
        exact hone

theorem run_sound {es : List LabelEvent} {a a' : Linker} (h : a.Sound)
    (hrun : run es a = some a') : a'.Sound := by
  induction es generalizing a with
  | nil => cases hrun; exact h
  | cons e es ih =>
      obtain ⟨b, hstep, hrest⟩ := Option.bind_eq_some_iff.mp hrun
      exact ih (step_sound h hstep) hrest

end Linker

end Luatier
