import Luatier.Gc.Finalizers
import Luatier.Gc.Mutator
import Luatier.Gc.Reachability

/-!
# Incremental collection

Steps of the collector, full collections and actions of the program in any
order.  The finalizers at the end of a sweep run the program again, before the
sweep's own step has returned; the control stack records what waits for them.
-/

namespace Luatier

open Tricolor

/-- What waits for the program, or the collector's own loops. -/
inductive Control where
  /-- The finalizers of a sweep, and the objects that are still to come. -/
  | finalizers (pending : List Addr)
  /-- The first loop of `full_gc`, which finishes the cycle in progress. -/
  | finish
  /-- The second loop of `full_gc`. -/
  | cycle
  deriving DecidableEq, Repr

structure Config where
  state : State
  control : List Control := []

inductive Event where
  | act (x : Action)
  /-- `gc.step()`, as `collectgarbage("step")` calls it. -/
  | collectStep
  | collectFull
  /-- One iteration of a loop of `full_gc`. -/
  | turn
  /-- `run_finalizers` goes on to the next object. -/
  | finalize
  | finalizersReturn
  | finalizersRaise

namespace Config

def running (c : Config) : Bool :=
  match c.control with
  | [] => true
  | .finalizers _ :: _ => true
  | _ => false

/-- `GC::step`; one that sweeps with objects to finalize is left waiting. -/
def collectStep (c : Config) : Config :=
  match c.state.gc.phase with
  | .sweep =>
      let L := c.state.sweepObjects
      if L.gc.finalize = [] then { c with state := L.withPhase .pause }
      else ⟨L.takeFinalize, .finalizers L.gc.finalize :: c.control⟩
  | _ =>
      match c.state.step (.ok ()) with
      | .ok _ L => { c with state := L }
      | .error _ L => { c with state := L }

def step (c : Config) : Event → Option Config
  | .act x =>
      if c.running then (c.state.act x).map ({ c with state := · }) else none
  | .collectStep => if c.running then some c.collectStep else none
  | .collectFull =>
      if !c.running then none
      else if c.state.gc.collecting then some c
      else some ⟨c.state.setCollecting true, .finish :: c.control⟩
  | .turn =>
      match c.control with
      | .finish :: rest =>
          if c.state.gc.phase = .pause then
            some { Config.collectStep ⟨c.state.clearGray, rest⟩ with
              control := .cycle :: rest }
          else some c.collectStep
      | .cycle :: rest =>
          if c.state.gc.phase = .pause then
            some ⟨c.state.setCollecting false, rest⟩
          else some c.collectStep
      | _ => none
  | .finalize =>
      match c.control with
      | .finalizers (a :: pending) :: rest =>
          some ⟨c.state.startFinalizer a, .finalizers pending :: rest⟩
      | _ => none
  | .finalizersReturn =>
      match c.control with
      | .finalizers [] :: rest =>
          some ⟨(c.state.setRunningFinalizer false).withPhase .pause, rest⟩
      | _ => none
  | .finalizersRaise =>
      let L := c.state.setRunningFinalizer false
      match c.control with
      | .finalizers [] :: .finish :: rest =>
          some ⟨((L.setCollecting false).withPhase .pause).clearGray, rest⟩
      | .finalizers [] :: .cycle :: rest =>
          some ⟨((L.setCollecting false).withPhase .pause).clearGray, rest⟩
      | .finalizers [] :: rest => some ⟨L, rest⟩
      | _ => none

def sweeps (c : Config) : Event → Bool
  | .collectStep => c.running && c.state.gc.phase == .sweep
  | .turn => !c.running && c.state.gc.phase == .sweep
  | _ => false

def Step (c c' : Config) : Prop := ∃ e, c.step e = some c'

def run : Config → List Event → Option Config
  | c, [] => some c
  | c, e :: rest => (c.step e).bind (run · rest)

theorem path_of_run {c c' : Config} {events : List Event}
    (h : c.run events = some c') : Relation.ReflTransGen Step c c' := by
  induction events generalizing c with
  | nil =>
      obtain rfl := Option.some.inj h
      exact .refl
  | cons e rest ih =>
      obtain ⟨c₁, hstep, hrest⟩ := Option.bind_eq_some_iff.mp h
      exact .head ⟨e, hstep⟩ (ih hrest)

end Config

end Luatier
