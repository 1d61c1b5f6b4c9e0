import Luatier.Gc.Finalizers

/-!
# The calls of the finalizers

`run_finalizers` calls the finalizer of each pending object in its turn.  The
message of the first error is kept for the end of the loop; no error ends the
turns of the other objects.
-/

namespace Luatier

structure FinalizerCall where
  object : Addr
  finalizer : Addr
  raised : Option String
  deriving DecidableEq, Repr

namespace State

variable (program : Program)

def errorOf : Outcome → Option String
  | .ok _ _ => none
  | .error e _ => some e

/-- The call in the turn of an object; there is none if its `__gc` is not a function. -/
def turnCalls (L : State) (o : Addr) : List FinalizerCall :=
  match L.finalizerOf o, L.currentThread? with
  | .function f, some (a, th) =>
      [⟨o, f, errorOf ((L.startFinalizer o).callFinalizer program a th f
        (L.gcObjectValue o))⟩]
  | _, _ => []

def turns (L : State) (pending : List Addr) : State :=
  pending.foldl (fun L o => (finalizeOne program "" L o).2) L

def finalizerCalls : State → List Addr → List FinalizerCall
  | _, [] => []
  | L, o :: pending =>
      turnCalls program L o ++ finalizerCalls (finalizeOne program "" L o).2 pending

variable {program}

/-! ## One turn -/

theorem finalizeOne_eq (firstError : String) (L : State) (o : Addr) :
    finalizeOne program firstError L o =
      (if firstError.isEmpty then
        (((turnCalls program L o).findSome? (·.raised)).map gcError).getD firstError
      else firstError, (finalizeOne program "" L o).2) := by
  have hfirst : (if firstError.isEmpty then firstError else firstError) = firstError := ite_self _
  unfold finalizeOne turnCalls
  cases L.finalizerOf o with
  | function f =>
      cases L.currentThread? with
      | none => exact Prod.ext hfirst.symm rfl
      | some p =>
          obtain ⟨a, th⟩ := p
          simp only
          cases (L.startFinalizer o).callFinalizer program a th f (L.gcObjectValue o) with
          | ok _ L' => exact Prod.ext hfirst.symm rfl
          | error e L' => rfl
  | _ => exact Prod.ext hfirst.symm rfl

theorem turnCalls_object {L : State} {o : Addr} {call : FinalizerCall}
    (h : call ∈ turnCalls program L o) : call.object = o := by
  unfold turnCalls at h
  split at h
  · rw [List.mem_singleton.mp h]
  · contradiction

theorem turnCalls_sublist (L : State) (o : Addr) :
    ((turnCalls program L o).map (·.object)).Sublist [o] := by
  unfold turnCalls
  split
  · exact .refl _
  · exact List.nil_sublist _

theorem gcError_isEmpty (e : String) : (gcError e).isEmpty = false := by
  have hne : gcError e ≠ "" := by
    unfold gcError
    split
    · rintro rfl
      rename_i h
      revert h
      decide
    · intro h
      have hlist := congrArg String.toList h
      simp at hlist
  simpa using hne

/-! ## The loop -/

theorem finalizerCalls_append (L : State) (pre post : List Addr) :
    finalizerCalls program L (pre ++ post) =
      finalizerCalls program L pre ++ finalizerCalls program (turns program L pre) post := by
  induction pre generalizing L with
  | nil => rfl
  | cons o pre ih =>
      rw [List.cons_append, finalizerCalls, finalizerCalls, ih, List.append_assoc]
      rfl

theorem finalizerCalls_sublist (L : State) (pending : List Addr) :
    ((finalizerCalls program L pending).map (·.object)).Sublist pending := by
  induction pending generalizing L with
  | nil => exact .slnil
  | cons o pending ih =>
      rw [finalizerCalls, List.map_append]
      exact (turnCalls_sublist L o).append (ih _)

theorem runPending_eq (firstError : String) (L : State) (pending : List Addr) :
    runPending program (firstError, L) pending =
      (if firstError.isEmpty then
        (((finalizerCalls program L pending).findSome? (·.raised)).map gcError).getD firstError
      else firstError, turns program L pending) := by
  induction pending generalizing firstError L with
  | nil => exact Prod.ext (ite_self _).symm rfl
  | cons o pending ih =>
      show runPending program (finalizeOne program firstError L o) pending = _
      rw [finalizeOne_eq, ih, finalizerCalls, List.findSome?_append]
      refine Prod.ext ?_ rfl
      by_cases hfirst : firstError.isEmpty = true
      · rw [if_pos hfirst, if_pos hfirst]
        cases (turnCalls program L o).findSome? (·.raised) with
        | none => exact if_pos hfirst
        | some e => exact if_neg (by simp [gcError_isEmpty])
      · rw [if_neg hfirst, if_neg hfirst, if_neg hfirst]

theorem calls_of_object {L : State} {pending pre post : List Addr} {o : Addr}
    (hnodup : pending.Nodup) (hpending : pending = pre ++ o :: post) :
    (finalizerCalls program L pending).filter (·.object == o) =
      turnCalls program (turns program L pre) o := by
  subst hpending
  obtain ⟨-, hrest, hdisjoint⟩ := List.nodup_append.mp hnodup
  have hother {M : State} {others : List Addr} (hnot : o ∉ others) :
      (finalizerCalls program M others).filter (·.object == o) = [] := by
    rw [List.filter_eq_nil_iff]
    intro call hcall heq
    have hobject := (finalizerCalls_sublist M others).subset (List.mem_map_of_mem hcall)
    rw [beq_iff_eq.mp heq] at hobject
    exact hnot hobject
  rw [finalizerCalls_append, finalizerCalls, List.filter_append, List.filter_append,
    hother fun h => hdisjoint o h o List.mem_cons_self rfl,
    hother (List.nodup_cons.mp hrest).1, List.nil_append, List.append_nil]
  exact List.filter_eq_self.mpr fun call hcall => beq_iff_eq.mpr (turnCalls_object hcall)

/-- The loop ends with the first error that a call raised, and without the flag. -/
theorem runFinalizers_eq {L : State} (hpending : L.gc.finalize ≠ []) :
    runFinalizers program L =
      let L' := (turns program L.takeFinalize L.gc.finalize).setRunningFinalizer false
      match (finalizerCalls program L.takeFinalize L.gc.finalize).findSome? (·.raised) with
      | none => .ok () L'
      | some e => .error (gcError e) L'.dropErrObj := by
  rw [runFinalizers, if_neg hpending, runPending_eq, if_pos (show "".isEmpty = true from rfl)]
  cases (finalizerCalls program L.takeFinalize L.gc.finalize).findSome? (·.raised) with
  | none => rfl
  | some e => exact if_neg (by simp [gcError_isEmpty])

end State

end Luatier
