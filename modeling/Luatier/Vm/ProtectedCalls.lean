import Luatier.Vm.NativeSpec

/-!
# Protected calls that fail

A `pcall` or `xpcall` that returns `false` puts everything back but what
`CCallDepth` counted and then threw on, and what a message handler left behind.
-/

namespace Luatier

/-- The two functions that catch errors, with what they call. -/
inductive Protect where
  | pcall (callee : Callee)
  | xpcall (callee handler : Callee)

namespace Protect

def native : Protect → Native
  | .pcall callee => .pcall callee
  | .xpcall callee handler => .xpcall callee handler

def leaks (p : Protect) (L : State) : Nat := p.native.leaks L

/-- The counts that are still there when the protected call is back, too. -/
def leaked (p : Protect) (nCcalls : UInt16) (L : State) : Nat :=
  Leaks.unwound nCcalls (p.leaks L)

def handlerFrames : Protect → State → Nat
  | .pcall _, _ => 0
  | .xpcall callee handler, L =>
      State.xpcallFrames callee.program handler.program L

def program (p : Protect) (lua : Lua) : Program := (Callee.mk p.native lua).program

end Protect

theorem Thread.Above.leaveC {th th' : Thread} {cl : Addr} {funcIdx nargs k : Nat}
    {isTailcall : Bool} {rest : List CallFrame}
    (h : (th.countCall.enterC cl funcIdx nargs isTailcall).Above (funcIdx + 1)
      (th.countCall.enterC cl funcIdx nargs isTailcall).frames k th' rest)
    (nresults : Wanted) (resAbs nret : Nat) :
    ∃ rest', th.Above funcIdx th.frames (Leaks.unwound th.nCcalls k)
      (th'.leaveC funcIdx nargs nresults th.stackBase th.top resAbs nret).uncountCall
      rest' ∧ rest'.length = rest.length := by
  obtain ⟨fr, -, -, hbases, hnny, hdrop⟩ := h.enterC
  refine ⟨_, ⟨(Thread.frames_ensureStack _ _).trans hdrop,
    fun f hf => hbases f (List.mem_of_mem_dropLast hf),
    Thread.stackBase_ensureStack _ _, (Thread.nny_ensureStack _ _).trans hnny, ?_,
    (Thread.status_ensureStack _ _).trans h.status⟩, by simp⟩
  have hcalls : (th'.leaveC funcIdx nargs nresults th.stackBase th.top resAbs nret).nCcalls =
      th.nCcalls + 1 + UInt16.ofNat k :=
    (Thread.nCcalls_ensureStack _ _).trans h.nCcalls
  rw [← Leaks.unwound_spec, Thread.uncountCall, hcalls]

namespace State

def counters (L : State) : Option (Addr × List CallFrame × Nat × Int × UInt16) :=
  L.currentThread?.map fun (a, th) =>
    (a, th.frames, th.stackBase, th.nny, th.nCcalls)

def depths (L : State) : Option (Addr × Nat × Nat × Int × UInt16) :=
  L.counters.map fun (a, frames, rest) => (a, frames.length, rest)

/-- As before a protected call at slot `funcIdx`. -/
structure Restored (L L' : State) (a : Addr) (funcIdx : Nat) : Prop where
  counters : L'.counters = L.counters
  registers : ∀ i < funcIdx, ¬ L.Captured a i → L'.register a i = L.register a i

/--
Failing protected calls and steps of the caller between them; `k` calls are not
counted down, and `n` frames are left behind.
-/
inductive FailingCalls (a : Addr) : State → Nat → Nat → State → Prop
  | done (L : State) : FailingCalls a L 0 0 L
  | step {L L₁ L' : State} {th : Thread} {lim k n : Nat} {pc : Option Nat}
      (hth : L.thread? a = some th)
      (hstep : Confined a th lim (jump th.frames pc) L L₁) (hrest : FailingCalls a L₁ k n L') :
      FailingCalls a L k n L'
  | call {L L₁ L' : State} {th : Thread} {k n : Nat} (p : Protect) (lua : Lua)
      (cl : Addr) {funcIdx nargs : Nat} {nresults : Wanted} {isTailcall : Bool}
      {st : Status} (hth : L.thread? a = some th)
      (hr : L.runCCall (p.program lua) a cl funcIdx nargs nresults isTailcall =
        .ok st L₁)
      (hfailed : Failed (p.native.exec (L.entered a cl funcIdx nargs isTailcall)))
      (hrest : FailingCalls a L₁ k n L') :
      FailingCalls a L (p.leaked th.nCcalls (L.entered a cl funcIdx nargs isTailcall) + k)
        (p.handlerFrames (L.entered a cl funcIdx nargs isTailcall) + n) L'

variable {L L₁ L' : State} {a : Addr} {th th₁ : Thread} {k n : Nat}

theorem failed_restores (p : Protect) (hw : L.InWindow a th) (hfailed : Failed (p.native.exec L)) :
    L.Restores a th (p.leaks L) (p.handlerFrames L) (p.native.exec L).after := by
  cases p with
  | pcall callee => exact (basePcall_spec callee.contained hw).2 hfailed
  | xpcall callee handler =>
      exact (baseXpcall_spec callee.contained handler.contained hw).2 hfailed

theorem failedCall_spec (p : Protect) (lua : Lua) (hcurrent : L.current = some a)
    (hth : L.thread? a = some th) (hrunning : th.status = .running) (cl : Addr)
    {funcIdx nargs : Nat} {nresults : Wanted} {isTailcall : Bool} {st : Status}
    (hr : L.runCCall (p.program lua) a cl funcIdx nargs nresults isTailcall =
      .ok st L₁)
    (hfailed : Failed (p.native.exec (L.entered a cl funcIdx nargs isTailcall))) :
    Untouched a funcIdx th.frames L L₁ ∧
    ∃ th₁ rest, L₁.thread? a = some th₁ ∧
      th.Above funcIdx th.frames
        (p.leaked th.nCcalls (L.entered a cl funcIdx nargs isTailcall)) th₁ rest ∧
      rest.length = p.handlerFrames (L.entered a cl funcIdx nargs isTailcall) := by
  obtain ⟨L₂, hfinish, rfl⟩ := runCCall_ok hth hr
  have hw := entered_inWindow hcurrent hth hrunning cl funcIdx nargs isTailcall
  obtain ⟨hu, th', rest, hth', habove, hlen, -⟩ := failed_restores p hw hfailed
  have hcfunc : (p.program lua).cfunc cl = p.native.exec := rfl
  rw [hcfunc] at hfinish
  obtain ⟨nret, L', emsg, hexec, -⟩ := hfailed
  rw [hexec] at hu hth' hfinish
  have hpending : L'.yieldPending = false := hu.pending rfl
  simp only [finishC, hpending, Bool.false_eq_true, if_false] at hfinish
  cases hfinish
  simp only [Result.after_ok] at hu hth'
  generalize ((L'.thread? a).map (·.stackBase)).getD 0 +
    (L'.gettop - min nret.toNat L'.gettop) = resAbs
  have hleave := thread?_update hth' (·.leaveC funcIdx nargs nresults th.stackBase
    th.top resAbs (min nret.toNat L'.gettop))
  have hent := entered_untouched hth cl funcIdx nargs isTailcall funcIdx th.frames
  obtain ⟨rest', habove', hlen'⟩ := habove.leaveC nresults resAbs
    (min nret.toNat L'.gettop)
  refine ⟨hent.trans ((hu.mono (Nat.le_succ _) (List.subset_append_left _ _)).trans
    ((Untouched.updateThread L' _ fun {t} _ i hi => t.slot_leaveC _ _ _ _ _ _ hi).trans
      (Untouched.updateThread _ _ fun _ _ _ => rfl))), _, rest',
    thread?_update hleave _, habove', hlen'.trans hlen⟩

theorem counters_eq (hcurrent : L.current = some a) (hth : L.thread? a = some th) :
    L.counters = some (a, th.frames, th.stackBase, th.nny, th.nCcalls) := by
  rw [counters, currentThread?_eq hcurrent hth]
  rfl

theorem depths_eq (hcurrent : L.current = some a) (hth : L.thread? a = some th) :
    L.depths = some (a, th.frames.length, th.stackBase, th.nny, th.nCcalls) := by
  rw [depths, counters_eq hcurrent hth]
  rfl

theorem length_jump (frames : List CallFrame) (pc : Option Nat) :
    (jump frames pc).length = frames.length := by
  obtain rfl | ⟨init, fr, rfl⟩ := List.eq_nil_or_concat' frames
  · rfl
  · rw [jump_concat, List.length_append, List.length_append]
    rfl

theorem failingCalls_spec (h : FailingCalls a L k n L') :
    ∀ {th}, L.current = some a → L.thread? a = some th → th.status = .running →
      L'.current = some a ∧ ∃ th', L'.thread? a = some th' ∧
        th'.frames.length = th.frames.length + n ∧ th'.stackBase = th.stackBase ∧
        th'.nny = th.nny ∧ th'.nCcalls = th.nCcalls + UInt16.ofNat k := by
  induction h with
  | done L =>
      exact fun hcurrent hth _ => ⟨hcurrent, _, hth, rfl, rfl, rfl, leaks_nothing rfl⟩
  | step hth hstep _ ih =>
      intro t hcurrent ht hrunning
      obtain rfl := Option.some.inj (hth.symm.trans ht)
      obtain ⟨hu, th₁, hth₁, hframes, hbase, hnny, hcalls, hstatus, -⟩ := hstep
      obtain ⟨hcurrent', th', hth', hframes', hbase', hnny', hcalls'⟩ :=
        ih (hu.current.trans hcurrent) hth₁ (hstatus.trans hrunning)
      refine ⟨hcurrent', th', hth', ?_, hbase'.trans hbase, hnny'.trans hnny,
        hcalls'.trans (by rw [hcalls])⟩
      rw [hframes', hframes, length_jump]
  | call p lua cl hth hr hfailed _ ih =>
      intro t hcurrent ht hrunning
      obtain rfl := Option.some.inj (hth.symm.trans ht)
      obtain ⟨hu, th₁, rest, hth₁, habove, hlen⟩ :=
        failedCall_spec p lua hcurrent hth hrunning cl hr hfailed
      obtain ⟨hcurrent', th', hth', hframes', hbase', hnny', hcalls'⟩ :=
        ih (hu.current.trans hcurrent) hth₁ (habove.status.trans hrunning)
      refine ⟨hcurrent', th', hth', ?_, hbase'.trans habove.stackBase,
        hnny'.trans habove.nny, ?_⟩
      · rw [hframes', habove.frames, List.length_append, hlen, Nat.add_assoc]
      · rw [hcalls', habove.nCcalls, leaked_add]

/--
A failing protected call restores the thread, and so does a run of them, just if
the calls of theirs that were counted without being made vanish in the counter and
no handler left a frame.
-/
theorem protectedCall_restores_iff (p : Protect) (lua : Lua)
    (hcurrent : L.current = some a) (hth : L.thread? a = some th)
    (hrunning : th.status = .running) (cl : Addr) {funcIdx nargs : Nat}
    {nresults : Wanted} {isTailcall : Bool} {st : Status}
    (hr : L.runCCall (p.program lua) a cl funcIdx nargs nresults isTailcall =
      .ok st L₁)
    (hfailed : Failed (p.native.exec (L.entered a cl funcIdx nargs isTailcall))) :
    (L.Restored L₁ a funcIdx ↔
      UInt16.ofNat (p.leaked th.nCcalls (L.entered a cl funcIdx nargs isTailcall)) = 0 ∧
      p.handlerFrames (L.entered a cl funcIdx nargs isTailcall) = 0) ∧
    ∀ {k n : Nat} {L' : State}, FailingCalls a L₁ k n L' →
      (L'.depths = L.depths ↔
        UInt16.ofNat
          (p.leaked th.nCcalls (L.entered a cl funcIdx nargs isTailcall) + k) = 0 ∧
        p.handlerFrames (L.entered a cl funcIdx nargs isTailcall) + n = 0) := by
  obtain ⟨hu, th₁, rest, hth₁, habove, hlen⟩ :=
    failedCall_spec p lua hcurrent hth hrunning cl hr hfailed
  have hcurrent₁ := hu.current.trans hcurrent
  have hcounters := counters_eq hcurrent₁ hth₁
  rw [habove.frames, habove.stackBase, habove.nny, habove.nCcalls] at hcounters
  refine ⟨⟨fun h => ?_, fun ⟨hleaks, hleft⟩ => ⟨?_, fun i hi hfree => ?_⟩⟩,
    fun {k n L'} hcalls => ?_⟩
  · have hsame := h.counters
    rw [hcounters, counters_eq hcurrent hth] at hsame
    simp only [Option.some.injEq, Prod.mk.injEq, List.append_right_eq_self,
      UInt16.add_eq_left] at hsame
    obtain ⟨-, hrest, -, -, hleaks⟩ := hsame
    exact ⟨hleaks, by rw [← hlen, hrest, List.length_nil]⟩
  · rw [hleft, List.length_eq_zero_iff] at hlen
    rw [hcounters, counters_eq hcurrent hth, hleaks, hlen, List.append_nil,
      UInt16.add_zero]
  · obtain ⟨t, ht, hslots⟩ := hu.slots hth
    rw [register, register, ht, hth]
    exact hslots i hi hfree
  · obtain ⟨hcurrent', th', hth', hframes, hbase, hnny, hcount⟩ :=
      failingCalls_spec hcalls hcurrent₁ hth₁ (habove.status.trans hrunning)
    rw [depths_eq hcurrent' hth', depths_eq hcurrent hth, hframes, hbase, hnny, hcount,
      habove.frames, habove.stackBase, habove.nny, habove.nCcalls, List.length_append,
      hlen]
    simp only [Option.some.injEq, Prod.mk.injEq, true_and, leaked_add, UInt16.add_eq_left,
      Nat.add_assoc, Nat.add_eq_left]
    exact and_comm

def protecting (nCcalls : UInt16) : State :=
  { main := some 1
    current := some 1
    heap := [(1, .thread {
        stack := .function 2 :: .function 3 :: List.replicate 6 .nil
        top := 2
        status := .running
        nCcalls
        errObj := .boolean true
        errObjSet := true }),
      (2, .closure {}), (3, .closure {})] }

def raisingPcall : Protect := .pcall (.mk (.raise "error") (.raise "error"))

def afterPcall (nCcalls : UInt16) : Result Status :=
  (protecting nCcalls).runCCall (raisingPcall.program (.raise "error")) 1 2 0 1 none
    false

theorem protectedCall_restores_main :
    (protecting 0).Restored (afterPcall 0).after 1 0 :=
  (protectedCall_restores_iff (L := protecting 0) raisingPcall (.raise "error")
    rfl rfl rfl 2 (show afterPcall 0 = .ok .ok (afterPcall 0).after from rfl)
    ⟨2, _, .boolean true, rfl, rfl⟩).1.mpr ⟨by decide, by decide⟩

/-- The function under `pcall` is one call too deep: the count stays. -/
theorem protectedCall_counts_overflow :
    afterPcall 198 = .ok .ok (afterPcall 198).after ∧
    Failed (raisingPcall.native.exec ((protecting 198).entered 1 2 0 1 false)) ∧
    ¬ (protecting 198).Restored (afterPcall 198).after 1 0 :=
  ⟨rfl, ⟨2, _, .boolean true, rfl, rfl⟩, fun h =>
    absurd h.counters (by decide)⟩

end State

end Luatier
