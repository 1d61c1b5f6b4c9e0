import Luatier.Vm.CallReturn
import Luatier.Vm.NativeSpec

/-!
# Yielding

A coroutine that calls `coroutine.yield` keeps the frame of the call until it
is resumed.  Then the call is over, and its results are what was passed.
-/

namespace Luatier

open Cells Thread

/-- The call in slot `funcIdx` has returned `args` to who wants `nresults` of them. -/
structure Thread.Continued (th : Thread) (funcIdx : Nat) (nresults : Wanted)
    (args : List TValue) (th' : Thread) : Prop where
  frames : th'.frames = th.frames
  stackBase : th'.stackBase = th.stackBase
  nny : th'.nny = th.nny
  status : th'.status = .running
  top : th'.top = funcIdx + nresults.getD args.length
  below : ∀ i < funcIdx, th'.slot i = th.slot i
  results : ∀ j < nresults.getD args.length, th'.slot (funcIdx + j) = args.getD j .nil

namespace State

variable {L : State} {a cl : Addr} {th : Thread} {funcIdx nargs : Nat} {program : Program}

def yielded (th : Thread) (cl : Addr) (funcIdx nargs : Nat) (nresults : Wanted)
    (isTailcall : Bool) : Thread :=
  ({ th.enterC cl funcIdx nargs isTailcall with
      status := .suspended
      stackBase := th.stackBase } : Thread).yieldC funcIdx nresults (funcIdx + 1) nargs

theorem coroYield_ok (hcurrent : L.current = some a) (hth : L.thread? a = some th)
    (hmain : L.main ≠ some a) (hnny : th.nny ≤ 1) :
    coroYield L = .ok (th.top - th.stackBase : Nat) ({ L with yieldPending := true }.updateThread a
      ({ · with status := .suspended })) := by
  have htop : L.gettop = th.top - th.stackBase := by
    simp [gettop, hcurrent, hth]
  rw [coroYield, currentThread?_eq hcurrent hth]
  simp only
  rw [if_neg hmain, if_neg (by omega), htop]

theorem finishC_yields {t : Thread} (hcurrent : L.current = some a)
    (ht : L.thread? a = some t) (htop : t.top = t.stackBase + nargs)
    (hpending : L.yieldPending = true) (hcontinue : L.yieldContinue = false) (th : Thread)
    (cl : Addr) (funcIdx n : Nat) (nresults : Wanted) :
    ∃ L', finishC a th cl funcIdx n nresults (.ok (nargs : Int) L) = .ok .yield L' ∧
      L'.thread? a = some (({ t with stackBase := th.stackBase } : Thread).yieldC funcIdx
        nresults t.stackBase nargs) := by
  have hgettop : L.gettop = nargs := by
    simp [gettop, hcurrent, ht, htop]
  have hbase : ((L.thread? a).map (·.stackBase)).getD 0 = t.stackBase := by
    rw [ht]
    rfl
  have hback := thread?_update ht ({ · with stackBase := th.stackBase })
  have hfinish : finishC a th cl funcIdx n nresults (.ok (nargs : Int) L) =
      L.suspendC a th cl funcIdx nresults t.stackBase nargs := by
    simp [finishC, hgettop, hbase, hpending]
  rw [hfinish, suspendC]
  generalize hL₁ : L.updateThread a ({ · with stackBase := th.stackBase }) = L₁ at hback
  have hcontinue₁ : L₁.yieldContinue = false := by
    rw [← hL₁]
    exact hcontinue
  simp only [hcontinue₁, Bool.false_eq_true, if_false]
  exact ⟨_, rfl, thread?_update hback (·.yieldC funcIdx nresults t.stackBase nargs)⟩

theorem runCFrame_yields (hcurrent : L.current = some a) (hth : L.thread? a = some th)
    (hmain : L.main ≠ some a) (hnny : th.nny ≤ 0) (nresults : Wanted) (isTailcall : Bool)
    (hcontinue : L.yieldContinue = false) (hyield : program.cfunc cl = coroYield) :
    ∃ L', L.runCFrame program a th cl funcIdx nargs nresults isTailcall = .ok .yield L' ∧
      L'.thread? a = some (yielded th cl funcIdx nargs nresults isTailcall) := by
  have hth₁ : (L.enterC a cl funcIdx nargs isTailcall).thread? a =
      some (th.enterC cl funcIdx nargs isTailcall) := thread?_update hth _
  have hnny₁ : (th.enterC cl funcIdx nargs isTailcall).nny ≤ 1 := by
    show th.nny + 1 ≤ 1
    omega
  have hrun := coroYield_ok (L := L.enterC a cl funcIdx nargs isTailcall) hcurrent hth₁
    hmain hnny₁
  have hcount : (th.enterC cl funcIdx nargs isTailcall).top -
      (th.enterC cl funcIdx nargs isTailcall).stackBase = nargs := Nat.add_sub_cancel_left _ _
  rw [hcount] at hrun
  rw [runCFrame, hyield, hrun]
  have hth₂ := thread?_update (L := { L.enterC a cl funcIdx nargs isTailcall with
    yieldPending := true }) hth₁ ({ · with status := .suspended })
  refine finishC_yields ?_ hth₂ rfl rfl ?_ th cl funcIdx nargs nresults
  · exact hcurrent
  · exact hcontinue

theorem yielded_frames (th : Thread) (cl : Addr) (funcIdx nargs : Nat) (nresults : Wanted)
    (isTailcall : Bool) : (yielded th cl funcIdx nargs nresults isTailcall).frames =
      th.frames ++ [{ cl := some cl, base := funcIdx, kind := .cApi, tailcall := isTailcall }] :=
  Thread.frames_ensureStack _ _

theorem yielded_status (th : Thread) (cl : Addr) (funcIdx nargs : Nat) (nresults : Wanted)
    (isTailcall : Bool) :
    (yielded th cl funcIdx nargs nresults isTailcall).status = .suspended ∧
      (yielded th cl funcIdx nargs nresults isTailcall).yieldVals =
        th.values (funcIdx + 1) nargs := by
  constructor
  · exact Thread.status_ensureStack _ _
  · unfold yielded Thread.yieldC Thread.ensureStack
    simp only
    split <;> rfl

theorem continued_of_yielded (th : Thread) (cl : Addr) (funcIdx nargs : Nat) (nresults : Wanted)
    (isTailcall : Bool) (args : List TValue) : th.Continued funcIdx nresults args
      ((yielded th cl funcIdx nargs nresults isTailcall).continueCoroutine args) := by
  have hframes := yielded_frames th cl funcIdx nargs nresults isTailcall
  have hslots (i : Nat) :
      (yielded th cl funcIdx nargs nresults isTailcall).slot i = th.slot i :=
    Thread.slot_ensureStack _ _ _
  have hdest : (yielded th cl funcIdx nargs nresults isTailcall).yieldFuncIdx = funcIdx ∧
      (yielded th cl funcIdx nargs nresults isTailcall).yieldNresults = nresults := by
    unfold yielded Thread.yieldC Thread.ensureStack
    simp only
    split <;> exact ⟨rfl, rfl⟩
  have hbase : (yielded th cl funcIdx nargs nresults isTailcall).stackBase = th.stackBase :=
    Thread.stackBase_ensureStack _ _
  have hnny : (yielded th cl funcIdx nargs nresults isTailcall).nny = th.nny :=
    Int.add_sub_cancel _ _
  generalize yielded th cl funcIdx nargs nresults isTailcall = t at *
  obtain ⟨rfl, rfl⟩ := hdest
  have hensured (i n : Nat) :
      (({ t with frames := th.frames } : Thread).ensureStack n).slot i = th.slot i :=
    (slot_ensureStack _ _ _).trans (hslots i)
  generalize hplace : t.yieldNresults.getD args.length = nplace
  have hcontinued : t.continueCoroutine args =
      { (({ t with frames := th.frames } : Thread).ensureStack
          (t.yieldFuncIdx + nplace + 8)).overwrite fun i =>
            if t.yieldFuncIdx ≤ i ∧ i < t.yieldFuncIdx + nplace then
              some (args.getD (i - t.yieldFuncIdx) .nil) else none with
        top := t.yieldFuncIdx + nplace
        status := .running } := by
    unfold continueCoroutine
    rw [hframes, List.getLast?_concat, hplace]
    simp only [true_and, if_true, List.dropLast_concat]
  have hlength : (({ t with frames := th.frames } : Thread).ensureStack
      (t.yieldFuncIdx + nplace + 8)).stack.length =
        grown t.stack.length (t.yieldFuncIdx + nplace + 8) := length_ensureStack _ _
  have hroom := grown_ge t.stack.length (t.yieldFuncIdx + nplace + 8)
  rw [hcontinued]
  exact {
    frames := Thread.frames_ensureStack _ _
    stackBase := (Thread.stackBase_ensureStack _ _).trans hbase
    nny := (Thread.nny_ensureStack _ _).trans hnny
    status := rfl
    top := by rw [hplace]
    below := fun i hi => (Thread.slot_overwrite _ (if_neg (by omega))).trans (hensured i _)
    results := fun j hj => by
      rw [hplace] at hj
      have hlt : t.yieldFuncIdx + j < (({ t with frames := th.frames } : Thread).ensureStack
          (t.yieldFuncIdx + nplace + 8)).stack.length := by omega
      refine (slot_overwrite_of_lt _ hlt).trans ?_
      rw [if_pos ⟨Nat.le_add_right _ _, by omega⟩, Nat.add_sub_cancel_left]
      rfl }

/-- A yield that is resumed is a call that returns what the resumption passes. -/
theorem coroYield_continued (hcurrent : L.current = some a) (hth : L.thread? a = some th)
    (hmain : L.main ≠ some a) (hnny : th.nny ≤ 0) (nresults : Wanted) (isTailcall : Bool)
    (hcontinue : L.yieldContinue = false) (hyield : program.cfunc cl = coroYield) :
    ∃ L' th', L.runCFrame program a th cl funcIdx nargs nresults isTailcall = .ok .yield L' ∧
      L'.thread? a = some th' ∧ th'.status = .suspended ∧
      th'.yieldVals = th.values (funcIdx + 1) nargs ∧
      ∀ args, th.Continued funcIdx nresults args (th'.continueCoroutine args) := by
  obtain ⟨L', hrun, hth'⟩ := runCFrame_yields hcurrent hth hmain hnny nresults isTailcall
    hcontinue hyield
  obtain ⟨hstatus, hvals⟩ := yielded_status th cl funcIdx nargs nresults isTailcall
  exact ⟨L', _, hrun, hth', hstatus, hvals, continued_of_yielded th cl funcIdx nargs nresults
    isTailcall⟩

end State

end Luatier
