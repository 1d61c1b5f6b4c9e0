import Luatier.Vm.Call
import Luatier.Gc.Mark

/-!
# What a call leaves alone

Code that runs in frames pushed above a slot neither rewrites the registers
below the slot nor drops the frames below, and threads that wait for it stay
as they are.  The contract says so of the interpreter and of native functions;
`callClosure` inherits it.
-/

namespace Luatier

namespace State

def Captured (L : State) (a : Addr) (i : Nat) : Prop :=
  ∃ u uv, L.upval? u = some uv ∧ uv.isOpen = true ∧ uv.thread = some a ∧
    uv.stackIndex = i

structure SameCalls (L L' : State) : Prop where
  current : L'.current = L.current
  main : L'.main = L.main
  pending : L'.yieldPending = L.yieldPending
  thread? : L'.thread? = L.thread?
  proto? : L'.proto? = L.proto?
  closure? : L'.closure? = L.closure?
  upval? : L'.upval? = L.upval?

theorem SameCalls.refl (L : State) : SameCalls L L :=
  ⟨rfl, rfl, rfl, rfl, rfl, rfl, rfl⟩

theorem SameCalls.trans {L L₁ L₂ : State} (h₁ : SameCalls L L₁)
    (h₂ : SameCalls L₁ L₂) : SameCalls L L₂ :=
  ⟨h₂.current.trans h₁.current, h₂.main.trans h₁.main,
    h₂.pending.trans h₁.pending, h₂.thread?.trans h₁.thread?,
    h₂.proto?.trans h₁.proto?, h₂.closure?.trans h₁.closure?,
    h₂.upval?.trans h₁.upval?⟩

structure Idle (b : Addr) (L L' : State) : Prop where
  captured : ∀ i, L'.Captured b i → L.Captured b i
  thread : ∀ {th}, L.thread? b = some th →
    (∀ fr ∈ th.frames, L'.windowEnd fr = L.windowEnd fr) ∧
    ∃ th', L'.thread? b = some th' ∧ th'.frames = th.frames ∧ th'.top = th.top ∧
      th'.stackBase = th.stackBase ∧ th'.nny = th.nny ∧
      th'.nCcalls = th.nCcalls ∧ th'.status = th.status ∧
      ∀ i, ¬ L.Captured b i → th'.slot i = th.slot i

def Running (L : State) (b : Addr) : Prop :=
  ∃ th, L.thread? b = some th ∧ th.status = .running

theorem Idle.trans {b : Addr} {L L₁ L₂ : State} (h₁ : Idle b L L₁)
    (h₂ : Idle b L₁ L₂) : Idle b L L₂ where
  captured i h := h₁.captured i (h₂.captured i h)
  thread := by
    intro th hth
    obtain ⟨hw₁, th₁, hth₁, hf₁, ht₁, hb₁, hn₁, hc₁, hs₁, hslot₁⟩ := h₁.thread hth
    obtain ⟨hw₂, th₂, hth₂, hf₂, ht₂, hb₂, hn₂, hc₂, hs₂, hslot₂⟩ := h₂.thread hth₁
    refine ⟨fun fr hfr => (hw₂ fr (hf₁ ▸ hfr)).trans (hw₁ fr hfr), th₂, hth₂,
      hf₂.trans hf₁, ht₂.trans ht₁, hb₂.trans hb₁, hn₂.trans hn₁, hc₂.trans hc₁,
      hs₂.trans hs₁, fun i hfree => ?_⟩
    have hfree₁ : ¬ L₁.Captured b i := fun h => hfree (h₁.captured i h)
    exact (hslot₂ i hfree₁).trans (hslot₁ i hfree)

theorem Idle.running {b : Addr} {L L' : State} (h : Idle b L L')
    (hb : L.Running b) : L'.Running b := by
  obtain ⟨th, hth, hrun⟩ := hb
  obtain ⟨-, th', hth', -, -, -, -, -, hs, -⟩ := h.thread hth
  exact ⟨th', hth', hs.trans hrun⟩

theorem Idle.of_objects {b : Addr} {L L' : State}
    (hthread : L'.thread? b = L.thread? b) (hproto : L'.proto? = L.proto?)
    (hclosure : L'.closure? = L.closure?) (hupval : L'.upval? = L.upval?) :
    Idle b L L' where
  captured i h := by
    unfold Captured at h
    rwa [hupval] at h
  thread := by
    intro th hth
    refine ⟨fun fr _ => ?_, th, hthread.trans hth, rfl, rfl, rfl, rfl, rfl, rfl,
      fun _ _ => rfl⟩
    unfold windowEnd
    rw [hproto, hclosure]

/--
Below slot `lim` the thread `a` keeps its registers, but for the variables
that closures share; the frames `fs` keep their windows, and no other thread
that is running or waits for a coroutine is touched.
-/
structure Untouched (a : Addr) (lim : Nat) (fs : List CallFrame) (L L' : State) :
    Prop where
  current : L'.current = L.current
  main : L'.main = L.main
  pending : L.yieldPending = false → L'.yieldPending = false
  captured : ∀ i < lim, L'.Captured a i → L.Captured a i
  windows : ∀ fr ∈ fs, L'.windowEnd fr = L.windowEnd fr
  protos : ∀ p, (L.proto? p).isSome = true → (L'.proto? p).isSome = true
  slots : ∀ {th}, L.thread? a = some th → ∃ th', L'.thread? a = some th' ∧
    ∀ i < lim, ¬ L.Captured a i → th'.slot i = th.slot i
  others : ∀ b ≠ a, L.Running b → Idle b L L'

namespace Untouched

variable {a : Addr} {lim : Nat} {fs : List CallFrame} {L L₁ L₂ : State}

theorem trans (h₁ : Untouched a lim fs L L₁) (h₂ : Untouched a lim fs L₁ L₂) :
    Untouched a lim fs L L₂ where
  current := h₂.current.trans h₁.current
  main := h₂.main.trans h₁.main
  pending h := h₂.pending (h₁.pending h)
  captured i hi h := h₁.captured i hi (h₂.captured i hi h)
  windows fr hfr := (h₂.windows fr hfr).trans (h₁.windows fr hfr)
  protos p hp := h₂.protos p (h₁.protos p hp)
  slots := by
    intro th hth
    obtain ⟨th₁, hth₁, hslots₁⟩ := h₁.slots hth
    obtain ⟨th₂, hth₂, hslots₂⟩ := h₂.slots hth₁
    refine ⟨th₂, hth₂, fun i hi hfree => ?_⟩
    have hfree₁ : ¬ L₁.Captured a i := fun h => hfree (h₁.captured i hi h)
    exact (hslots₂ i hi hfree₁).trans (hslots₁ i hi hfree)
  others b hb hrun := by
    have h := h₁.others b hb hrun
    exact h.trans (h₂.others b hb (h.running hrun))

theorem mono {lim' : Nat} {fs' : List CallFrame} (h : Untouched a lim fs L L₁)
    (hlim : lim' ≤ lim) (hfs : fs' ⊆ fs) : Untouched a lim' fs' L L₁ where
  current := h.current
  main := h.main
  pending := h.pending
  captured i hi := h.captured i (by omega)
  windows fr hfr := h.windows fr (hfs hfr)
  protos := h.protos
  slots := by
    intro th hth
    obtain ⟨th', hth', hslots⟩ := h.slots hth
    exact ⟨th', hth', fun i hi => hslots i (by omega)⟩
  others := h.others

theorem of_objects (hcurrent : L₁.current = L.current) (hmain : L₁.main = L.main)
    (hpending : L.yieldPending = false → L₁.yieldPending = false)
    (hproto : L₁.proto? = L.proto?) (hclosure : L₁.closure? = L.closure?)
    (hupval : L₁.upval? = L.upval?)
    (hothers : ∀ b ≠ a, L₁.thread? b = L.thread? b)
    (hslots : ∀ {th}, L.thread? a = some th → ∃ th', L₁.thread? a = some th' ∧
      ∀ i < lim, th'.slot i = th.slot i) :
    Untouched a lim fs L L₁ where
  current := hcurrent
  main := hmain
  pending := hpending
  captured i _ h := by
    unfold Captured at h
    rwa [hupval] at h
  windows fr _ := by
    unfold windowEnd
    rw [hproto, hclosure]
  protos p hp := by rwa [hproto]
  slots := by
    intro th hth
    obtain ⟨th', hth', hs⟩ := hslots hth
    exact ⟨th', hth', fun i hi _ => hs i hi⟩
  others b hb _ := .of_objects (hothers b hb) hproto hclosure hupval

theorem of_sameCalls (h : SameCalls L L₁) : Untouched a lim fs L L₁ := by
  refine of_objects h.current h.main (fun hp => h.pending.trans hp) h.proto?
    h.closure? h.upval? (fun b _ => by rw [h.thread?]) fun {th} hth => ?_
  exact ⟨th, by rw [h.thread?, hth], fun _ _ => rfl⟩

theorem refl (L : State) : Untouched a lim fs L L := of_sameCalls (.refl L)

theorem updateThread (L : State) (f : Thread → Thread)
    (h : ∀ {th}, L.thread? a = some th → ∀ i < lim, (f th).slot i = th.slot i) :
    Untouched a lim fs L (L.updateThread a f) := by
  refine of_objects rfl rfl id (proto?_updateThread L a f)
    (closure?_updateThread L a f) (upval?_updateThread L a f)
    (fun b hb => L.thread?_updateThread_ne f hb) ?_
  intro th hth
  exact ⟨f th, by rw [thread?_updateThread, hth]; rfl, h hth⟩

theorem of_heap (hcurrent : L₁.current = L.current) (hmain : L₁.main = L.main)
    (hpending : L.yieldPending = false → L₁.yieldPending = false)
    (hheap : L₁.heap = L.heap) : Untouched a lim fs L L₁ := by
  have hobject : L₁.object? = L.object? := by
    funext b
    simp only [object?, hheap]
  refine of_objects hcurrent hmain hpending ?_ ?_ ?_ (fun b _ => ?_) ?_
  · funext b
    simp only [proto?, hobject]
  · funext b
    simp only [closure?, hobject]
  · funext b
    simp only [upval?, hobject]
  · simp only [thread?, hobject]
  · intro th hth
    refine ⟨th, ?_, fun _ _ => rfl⟩
    simpa only [thread?, hobject] using hth

end Untouched

end State

/--
The thread after a call above slot `lim`: the frames `fs` are in place, frames
above them start above the slot, and `k` calls have not been counted down.  The
counter is an `unsigned short`.
-/
structure Thread.Above (th : Thread) (lim : Nat) (fs : List CallFrame) (k : Nat)
    (th' : Thread) (rest : List CallFrame) : Prop where
  frames : th'.frames = fs ++ rest
  bases : ∀ fr ∈ rest, lim ≤ fr.base
  stackBase : th'.stackBase = th.stackBase
  nny : th'.nny = th.nny
  nCcalls : th'.nCcalls = th.nCcalls + UInt16.ofNat k
  status : th'.status = th.status

theorem leaked_zero (n : UInt16) : n + UInt16.ofNat 0 = n := UInt16.add_zero n

theorem leaks_nothing {n n' : UInt16} (h : n' = n) : n' = n + UInt16.ofNat 0 :=
  h.trans (leaked_zero n).symm

theorem leaked_add (n : UInt16) (j k : Nat) :
    n + UInt16.ofNat j + UInt16.ofNat k = n + UInt16.ofNat (j + k) := by
  rw [UInt16.ofNat_add, UInt16.add_assoc]

namespace State

/-- A call that returns or raises; one that raises may leave frames behind. -/
structure LeavesAbove (L : State) (a : Addr) (th : Thread) (lim : Nat)
    (fs : List CallFrame) (k : Nat) (r : Result Status) : Prop where
  untouched : Untouched a lim fs L r.after
  finished : ∀ s L', r = .ok s L' → s = .ok
  thread : ∃ th' rest, r.after.thread? a = some th' ∧ th.Above lim fs k th' rest ∧
    lim ≤ th'.top

structure KeepsWindow (L : State) (a : Addr) (th : Thread) (k : Nat) (L' : State) :
    Prop where
  untouched : Untouched a th.stackBase th.frames L L'
  thread : ∃ th' rest, L'.thread? a = some th' ∧
    th.Above th.stackBase th.frames k th' rest ∧ th.stackBase ≤ th'.top

end State

/-- How often code raises the counter of nested calls without lowering it again. -/
structure Leaks where
  interpret : State → Nat
  cfunc : Addr → State → Nat

namespace Leaks

variable (leaks : Leaks)

/--
What the destructor of `CCallDepth` makes of `k` leaks.  A counter that they have
brought round to zero is not lowered.
-/
def unwound (nCcalls : UInt16) (k : Nat) : Nat :=
  if nCcalls + 1 + UInt16.ofNat k = 0 then k + 1 else k

theorem unwound_spec (n : UInt16) (k : Nat) :
    (if 0 < n + 1 + UInt16.ofNat k then n + 1 + UInt16.ofNat k - 1
      else n + 1 + UInt16.ofNat k) = n + UInt16.ofNat (unwound n k) := by
  have hnext : n + UInt16.ofNat (k + 1) = n + 1 + UInt16.ofNat k := by
    rw [UInt16.ofNat_add, UInt16.add_comm (UInt16.ofNat k), ← UInt16.add_assoc]
    rfl
  have hback : n + 1 + UInt16.ofNat k - 1 = n + UInt16.ofNat k := by
    rw [UInt16.add_assoc, UInt16.add_comm 1, ← UInt16.add_assoc, UInt16.add_sub_cancel]
  unfold unwound
  by_cases hzero : n + 1 + UInt16.ofNat k = 0
  · rw [if_pos hzero, hnext, hzero, if_neg (UInt16.lt_irrefl 0)]
  · rw [if_neg hzero, if_pos (UInt16.pos_iff_ne_zero.mpr hzero), hback]

def runCCall (L : State) (a : Addr) (cl : Addr) (funcIdx nargs : Nat)
    (isTailcall : Bool) : Nat :=
  match L.thread? a with
  | none => 0
  | some th =>
      if th.stack.length < funcIdx + 1 + nargs then 0
      else
        match L.incrCcalls a with
        | .error _ _ => 1
        | .ok _ L =>
            unwound th.nCcalls (leaks.cfunc cl (L.enterC a cl funcIdx nargs isTailcall))

def callLua (L : State) (a : Addr) (cl protoAddr : Addr) (funcIdx nargs : Nat)
    (nresults : Wanted) : Nat :=
  match L.incrCcalls a with
  | .error _ _ => 1
  | .ok _ L₁ =>
      unwound (((L.thread? a).map (·.nCcalls)).getD 0)
        (match L₁.pushLuaFrame a cl protoAddr funcIdx nargs nresults false with
        | .error _ _ => 0
        | .ok _ L => leaks.interpret L)

def callClosure (L : State) (cl : Addr) (nargs : Nat) (nresults : Wanted) : Nat :=
  match L.current.bind fun a => (L.thread? a).map (a, ·), L.closure? cl with
  | some (a, th), some c =>
      if th.top < nargs + 1 then 0
      else
        let funcIdx := th.top - nargs - 1
        match c.proto with
        | none => leaks.runCCall L a cl funcIdx nargs false
        | some p => leaks.callLua L a cl p funcIdx nargs nresults
  | _, _ => 0

end Leaks

/--
The contract on the code that calls run.  The interpreter works in the window
of the frame it was started on and above, a native function in its own window
and above.
-/
structure Program.Contained (program : Program) (leaks : Leaks) : Prop where
  interpret {L : State} {a : Addr} {th : Thread} {fs : List CallFrame}
    {fr : CallFrame} (hcurrent : L.current = some a) (hth : L.thread? a = some th)
    (hrunning : th.status = .running) (hframes : th.frames = fs ++ [fr])
    (htop : fr.base ≤ th.top) :
    L.LeavesAbove a th fr.base fs (leaks.interpret L) (program.interpret L)
  cfunc {f : Addr} {L : State} {a : Addr} {th : Thread}
    (hcurrent : L.current = some a) (hth : L.thread? a = some th)
    (hrunning : th.status = .running) (htop : th.stackBase ≤ th.top) :
    L.KeepsWindow a th (leaks.cfunc f L) (program.cfunc f L).after

/-! ## The operations on frames -/

namespace Thread

variable (th : Thread)

theorem slot_pushLuaFrame (cl protoAddr : Addr) (p : Proto)
    {funcIdx nargs i : Nat} (nresults : Wanted) (isTailcall : Bool)
    (hi : i < funcIdx) :
    (th.pushLuaFrame cl protoAddr p funcIdx nargs nresults isTailcall).slot i =
      th.slot i := by
  refine (slot_fillNil _ (by omega)).trans ((slot_ensureStack _ _ _).trans ?_)
  exact th.slot_overwrite (if_neg (by omega))

theorem above_pushLuaFrame (cl protoAddr : Addr) (p : Proto)
    (funcIdx nargs : Nat) (nresults : Wanted) (isTailcall : Bool) :
    ∃ fr, th.Above funcIdx th.frames 0
      (th.pushLuaFrame cl protoAddr p funcIdx nargs nresults isTailcall) [fr] ∧
      fr.base = funcIdx ∧ fr.expectedResults = nresults ∧ fr.kind = .interpLua ∧
      fr.proto = some protoAddr := by
  refine ⟨_, ⟨congrArg (· ++ _) (frames_ensureStack _ _), ?_,
    stackBase_ensureStack _ _, nny_ensureStack _ _,
    leaks_nothing (nCcalls_ensureStack _ _),
    status_ensureStack _ _⟩, rfl, rfl, rfl, rfl⟩
  intro fr hfr
  rw [List.mem_singleton.mp hfr]

theorem above_self (lim : Nat) : th.Above lim th.frames 0 th [] where
  frames := (List.append_nil _).symm
  bases _ hfr := absurd hfr List.not_mem_nil
  stackBase := rfl
  nny := rfl
  nCcalls := leaks_nothing rfl
  status := rfl

theorem above_countCall (lim : Nat) :
    th.Above lim th.frames 1 th.countCall [] where
  frames := (List.append_nil _).symm
  bases _ hfr := absurd hfr List.not_mem_nil
  stackBase := rfl
  nny := rfl
  nCcalls := rfl
  status := rfl

theorem slot_leaveC {funcIdx i : Nat} (nargs : Nat) (nresults : Wanted)
    (prevBase prevTop resAbs nret : Nat) (hi : i < funcIdx) :
    (th.leaveC funcIdx nargs nresults prevBase prevTop resAbs nret).slot i =
      th.slot i := by
  refine (slot_fillNil _ (by omega)).trans ((slot_fillNil _ (by omega)).trans ?_)
  exact (slot_move _ hi).trans (slot_ensureStack _ _ _)

theorem slot_raiseC (isMain : Bool) {funcIdx i : Nat} (prevBase prevTop : Nat)
    (hi : i < funcIdx) :
    (th.raiseC isMain funcIdx prevBase prevTop).slot i = th.slot i := by
  unfold raiseC
  cases isMain with
  | true => exact slot_fillNil _ hi
  | false => rfl

theorem top_raiseC (isMain : Bool) (funcIdx prevBase prevTop : Nat) :
    (th.raiseC isMain funcIdx prevBase prevTop).top = funcIdx := by
  cases isMain <;> rfl

variable {th}

theorem Above.enterC {th' : Thread} {cl : Addr} {funcIdx nargs k : Nat}
    {isTailcall : Bool} {rest : List CallFrame}
    (h : (th.enterC cl funcIdx nargs isTailcall).Above (funcIdx + 1)
      (th.enterC cl funcIdx nargs isTailcall).frames k th' rest) :
    ∃ fr, th'.frames = th.frames ++ fr :: rest ∧ fr.kind = .cApi ∧
      (∀ fr' ∈ fr :: rest, funcIdx ≤ fr'.base) ∧ th'.nny - 1 = th.nny ∧
      th'.frames.dropLast = th.frames ++ (fr :: rest).dropLast := by
  obtain ⟨fr, hfr, hbase, hkind⟩ : ∃ fr, (th.enterC cl funcIdx nargs
      isTailcall).frames = th.frames ++ [fr] ∧ fr.base = funcIdx ∧
      fr.kind = .cApi := ⟨_, rfl, rfl, rfl⟩
  have hframes : th'.frames = th.frames ++ fr :: rest := by
    rw [h.frames, hfr, List.append_assoc, List.singleton_append]
  refine ⟨fr, hframes, hkind, fun f hf => ?_, ?_, ?_⟩
  · rcases List.mem_cons.mp hf with rfl | hf
    · exact hbase.ge
    · exact Nat.le_of_succ_le (h.bases f hf)
  · rw [h.nny]
    exact Int.add_sub_cancel th.nny 1
  · rw [hframes, List.dropLast_append_of_ne_nil (List.cons_ne_nil _ _)]

end Thread

namespace State

variable {program : Program} {leaks : Leaks} {L L₁ : State} {a : Addr}
  {th th₁ : Thread} {lim k : Nat} {fs : List CallFrame} {r : Result Status}

theorem Untouched.leaves (hu : Untouched a lim fs L L₁)
    (hth : L₁.thread? a = some th₁) {f : Thread → Thread} (rest : List CallFrame)
    (hafter : r.after = L₁.updateThread a f) (hfinished : ∀ s L', r = .ok s L' → s = .ok)
    (hslots : ∀ i < lim, (f th₁).slot i = th₁.slot i)
    (habove : th.Above lim fs k (f th₁) rest) (htop : lim ≤ (f th₁).top) :
    L.LeavesAbove a th lim fs k r := by
  have hupdate : Untouched a lim fs L₁ (L₁.updateThread a f) :=
    Untouched.updateThread L₁ f fun {t} ht => by
      obtain rfl : th₁ = t := Option.some.inj (hth.symm.trans ht)
      exact hslots
  refine ⟨?_, hfinished, f th₁, rest, ?_, habove, htop⟩
  · rw [hafter]
    exact hu.trans hupdate
  · rw [hafter, thread?_updateThread, hth]
    rfl

theorem Untouched.raises (hu : Untouched a lim th.frames L L₁)
    (hth : L₁.thread? a = some th₁) (habove : th.Above lim th.frames k th₁ [])
    (htop : lim ≤ th₁.top) (e : String) :
    L.LeavesAbove a th lim th.frames k (.error e L₁) :=
  ⟨hu, fun _ _ h => (nomatch h), th₁, [], hth, habove, htop⟩

theorem thread?_enterC (hth : L.thread? a = some th) (cl : Addr)
    (funcIdx nargs : Nat) (isTailcall : Bool) :
    (L.enterC a cl funcIdx nargs isTailcall).thread? a =
      some (th.enterC cl funcIdx nargs isTailcall) := by
  have h := L.thread?_updateThread a (·.enterC cl funcIdx nargs isTailcall)
  rw [hth] at h
  exact h

theorem runCFrame_leaves (hp : program.Contained leaks)
    (hcurrent : L.current = some a) (hth : L.thread? a = some th)
    (hrunning : th.status = .running) (th₀ : Thread)
    (hbase : th₀.stackBase = th.stackBase) (cl : Addr) (funcIdx nargs : Nat)
    (nresults : Wanted) (isTailcall : Bool) :
    L.LeavesAbove a th funcIdx th.frames
      (leaks.cfunc cl (L.enterC a cl funcIdx nargs isTailcall))
      (L.runCFrame program a th₀ cl funcIdx nargs nresults isTailcall) := by
  unfold runCFrame
  have hent := thread?_enterC hth cl funcIdx nargs isTailcall
  have hu : Untouched a funcIdx th.frames L
      (L.enterC a cl funcIdx nargs isTailcall) :=
    (Untouched.updateThread L (·.enterC cl funcIdx nargs isTailcall)
      fun _ _ _ => rfl).trans (.of_heap rfl rfl (fun _ => rfl) rfl)
  obtain ⟨hkeep, th', rest, hth', habove, htop⟩ :=
    hp.cfunc (f := cl) (show (L.enterC a cl funcIdx nargs isTailcall).current =
      some a from hcurrent) hent hrunning (Nat.le_add_right _ _)
  have hall := hu.trans (hkeep.mono (Nat.le_succ _) (List.subset_append_left _ _))
  have hpending := hkeep.pending rfl
  obtain ⟨fr, hframes, -, hbases, hnny, hdrop⟩ := habove.enterC
  have hdropped : ∀ fr' ∈ (fr :: rest).dropLast, funcIdx ≤ fr'.base :=
    fun fr' hfr' => hbases fr' (List.mem_of_mem_dropLast hfr')
  revert hth' hpending hall
  cases program.cfunc cl (L.enterC a cl funcIdx nargs isTailcall) with
  | error e L' =>
      intro hth' hall hpending
      -- Only the main thread drops the frame of a function that raised.
      refine hall.leaves hth' (if L'.main == some a then (fr :: rest).dropLast
        else fr :: rest) rfl (fun _ _ h => nomatch h)
        (fun i hi => th'.slot_raiseC _ _ _ hi) ?_ (th'.top_raiseC _ _ _ _).ge
      cases L'.main == some a with
      | true =>
          exact ⟨hdrop, hdropped, hbase, hnny, habove.nCcalls, habove.status⟩
      | false =>
          exact ⟨hframes, hbases, hbase, hnny, habove.nCcalls, habove.status⟩
  | ok nret L' =>
      intro hth' hall hpending
      unfold finishC
      simp only [Result.after] at hpending
      simp only [hpending, Bool.false_eq_true, if_false]
      exact hall.leaves hth' (fr :: rest).dropLast rfl (fun _ _ h => by cases h; rfl)
        (fun i hi => th'.slot_leaveC _ _ _ _ _ _ hi)
        ⟨(Thread.frames_ensureStack _ _).trans hdrop, hdropped,
          (Thread.stackBase_ensureStack _ _).trans hbase,
          (Thread.nny_ensureStack _ _).trans hnny,
          (Thread.nCcalls_ensureStack _ _).trans habove.nCcalls,
          (Thread.status_ensureStack _ _).trans habove.status⟩
        (Nat.le_add_right _ _)

theorem incrCcalls_cases (L : State) (a : Addr) :
    L.incrCcalls a = .ok () (L.countCall a) ∨
    ∃ e, L.incrCcalls a = .error e (L.countCall a) := by
  unfold incrCcalls
  simp only
  split
  · split
    · exact Or.inr ⟨_, rfl⟩
    · split
      · exact Or.inr ⟨_, rfl⟩
      · exact Or.inl rfl
  · exact Or.inl rfl

theorem countCall_spec (lim : Nat) (fs : List CallFrame) (hth : L.thread? a = some th) :
    Untouched a lim fs L (L.countCall a) ∧
    (L.countCall a).thread? a = some th.countCall := by
  refine ⟨Untouched.updateThread _ _ fun _ _ _ => rfl, ?_⟩
  rw [countCall, thread?_updateThread, hth]
  rfl

theorem LeavesAbove.unwind (hu : Untouched a lim fs L L₁)
    (h : L₁.LeavesAbove a th.countCall lim fs k r) :
    L.LeavesAbove a th lim fs (Leaks.unwound th.nCcalls k)
      (Result.unwind (decrCcalls · a) r) := by
  obtain ⟨hkeep, hfinished, th', rest, hth', habove, htop⟩ := h
  have hcount : th'.uncountCall.nCcalls =
      th.nCcalls + UInt16.ofNat (Leaks.unwound th.nCcalls k) := by
    rw [← Leaks.unwound_spec, Thread.uncountCall, habove.nCcalls, Thread.countCall]
  refine (hu.trans hkeep).leaves hth' rest (Result.after_unwind _ _) ?_
    (fun _ _ => rfl)
    ⟨habove.frames, habove.bases, habove.stackBase, habove.nny, hcount,
      habove.status⟩ htop
  intro s L' hs
  cases r with
  | error e L₂ => contradiction
  | ok s₁ L₂ =>
      cases hs
      exact hfinished s L₂ rfl

theorem runCCall_leaves (hp : program.Contained leaks)
    (hcurrent : L.current = some a) (hth : L.thread? a = some th)
    (hrunning : th.status = .running) (cl : Addr) {funcIdx : Nat} (nargs : Nat)
    (nresults : Wanted) (isTailcall : Bool) (htop : funcIdx ≤ th.top) :
    L.LeavesAbove a th funcIdx th.frames
      (leaks.runCCall L a cl funcIdx nargs isTailcall)
      (L.runCCall program a cl funcIdx nargs nresults isTailcall) := by
  unfold State.runCCall Leaks.runCCall
  simp only [hth]
  split
  · exact (Untouched.refl L).raises hth (th.above_self _) htop _
  · obtain ⟨hu, hth₁⟩ := countCall_spec funcIdx th.frames hth
    obtain hincr | ⟨e, hincr⟩ := L.incrCcalls_cases a
    · simp only [hincr]
      refine .unwind hu ?_
      exact runCFrame_leaves hp (hu.current.trans hcurrent) hth₁ hrunning th rfl cl
        funcIdx nargs nresults isTailcall
    · simp only [hincr]
      exact hu.raises hth₁ (th.above_countCall _) htop e

theorem pushLuaFrame_cases (hth : L.thread? a = some th) (cl protoAddr : Addr)
    (funcIdx nargs : Nat) (nresults : Wanted) (isTailcall : Bool) :
    (∃ p, L.proto? protoAddr = some p ∧
      L.pushLuaFrame a cl protoAddr funcIdx nargs nresults isTailcall =
        .ok () (L.updateThread a
          (·.pushLuaFrame cl protoAddr p funcIdx nargs nresults isTailcall))) ∨
    ∃ e, L.pushLuaFrame a cl protoAddr funcIdx nargs nresults isTailcall =
      .error e L := by
  unfold State.pushLuaFrame
  rw [hth]
  cases L.proto? protoAddr with
  | none => exact Or.inr ⟨_, rfl⟩
  | some p =>
      simp only
      split
      · exact Or.inr ⟨_, rfl⟩
      · exact Or.inl ⟨p, rfl, rfl⟩

theorem pushed_spec (fs : List CallFrame) (hth : L.thread? a = some th) (cl protoAddr : Addr)
    (p : Proto) (funcIdx nargs : Nat) (nresults : Wanted) (isTailcall : Bool) :
    Untouched a funcIdx fs L (L.updateThread a
      (·.pushLuaFrame cl protoAddr p funcIdx nargs nresults isTailcall)) ∧
    ∃ th₁ fr, (L.updateThread a (·.pushLuaFrame cl protoAddr p funcIdx nargs
      nresults isTailcall)).thread? a = some th₁ ∧
      th.Above funcIdx th.frames 0 th₁ [fr] ∧ fr.base = funcIdx ∧
      fr.expectedResults = nresults ∧ fr.kind = .interpLua ∧
      fr.proto = some protoAddr ∧ funcIdx ≤ th₁.top := by
  refine ⟨Untouched.updateThread _ _ fun _ _ hi =>
    Thread.slot_pushLuaFrame _ _ _ _ _ _ hi, ?_⟩
  obtain ⟨fr, habove, hbase, hexpected, hkind, hproto⟩ :=
    th.above_pushLuaFrame cl protoAddr p funcIdx nargs nresults isTailcall
  refine ⟨_, fr, ?_, habove, hbase, hexpected, hkind, hproto,
    Nat.le_add_right _ _⟩
  rw [thread?_updateThread, hth]
  rfl

theorem callLua_leaves (hp : program.Contained leaks)
    (hcurrent : L.current = some a) (hth : L.thread? a = some th)
    (hrunning : th.status = .running) (cl protoAddr : Addr) {funcIdx : Nat}
    (nargs : Nat) (nresults : Wanted) (htop : funcIdx ≤ th.top) :
    L.LeavesAbove a th funcIdx th.frames
      (leaks.callLua L a cl protoAddr funcIdx nargs nresults)
      (L.callLua program a cl protoAddr funcIdx nargs nresults) := by
  unfold State.callLua Leaks.callLua
  rw [hth, Option.map_some, Option.getD_some]
  obtain ⟨hu, hth₁⟩ := countCall_spec funcIdx th.frames hth
  obtain hincr | ⟨e, hincr⟩ := L.incrCcalls_cases a
  · simp only [hincr]
    refine .unwind hu ?_
    obtain ⟨p, -, hpush⟩ | ⟨e, hpush⟩ := pushLuaFrame_cases hth₁ cl protoAddr funcIdx
      nargs nresults false
    · simp only [hpush]
      obtain ⟨hu₂, th₂, fr, hth₂, habove, hbase, -, -, -, htop₂⟩ := pushed_spec th.frames
        hth₁ cl protoAddr p funcIdx nargs nresults false
      have h := hp.interpret (hu₂.current.trans hcurrent) hth₂
        (habove.status.trans hrunning) habove.frames (hbase ▸ htop₂)
      rw [hbase] at h
      obtain ⟨hkeep, hfinished, th', rest, hth', habove', htop'⟩ := h
      exact ⟨hu₂.trans hkeep, hfinished, th', rest, hth',
        ⟨habove'.frames, habove'.bases, habove'.stackBase.trans habove.stackBase,
          habove'.nny.trans habove.nny, by
            rw [habove'.nCcalls, habove.nCcalls, leaked_zero],
          habove'.status.trans habove.status⟩, htop'⟩
    · simp only [hpush]
      exact (Untouched.refl (L.countCall a)).raises hth₁ (th.countCall.above_self _)
        htop e
  · simp only [hincr]
    exact hu.raises hth₁ (th.above_countCall _) htop e

theorem callClosure_leaves (hp : program.Contained leaks)
    (hcurrent : L.current = some a) (hth : L.thread? a = some th)
    (hrunning : th.status = .running) (cl : Addr) (nargs : Nat)
    (nresults : Wanted) :
    L.LeavesAbove a th (th.top - nargs - 1) th.frames
      (leaks.callClosure L cl nargs nresults)
      (L.callClosure program cl nargs nresults) := by
  unfold State.callClosure Leaks.callClosure
  have hthread : (L.current.bind fun a => (L.thread? a).map (a, ·)) =
      some (a, th) := by
    rw [hcurrent, Option.bind_some, hth]
    rfl
  have hle : th.top - nargs - 1 ≤ th.top := by omega
  simp only [hthread]
  cases L.closure? cl with
  | none =>
      exact (Untouched.refl L).raises hth
        (th.above_self _) hle _
  | some c =>
      simp only
      split
      · exact (Untouched.refl L).raises hth
          (th.above_self _) hle _
      · cases c.proto with
        | none => exact runCCall_leaves hp hcurrent hth hrunning cl nargs nresults false hle
        | some p => exact callLua_leaves hp hcurrent hth hrunning cl p nargs nresults hle

def entered (L : State) (a cl : Addr) (funcIdx nargs : Nat) (isTailcall : Bool) :
    State :=
  (L.countCall a).enterC a cl funcIdx nargs isTailcall

theorem entered_untouched (hth : L.thread? a = some th) (cl : Addr)
    (funcIdx nargs : Nat) (isTailcall : Bool) (lim : Nat) (fs : List CallFrame) :
    Untouched a lim fs L (L.entered a cl funcIdx nargs isTailcall) :=
  (countCall_spec lim fs hth).1.trans ((Untouched.updateThread (L.countCall a)
    (·.enterC cl funcIdx nargs isTailcall) fun _ _ _ => rfl).trans
      (.of_heap rfl rfl (fun _ => rfl) rfl))

theorem runCCall_ok (hth : L.thread? a = some th) {cl : Addr}
    {funcIdx nargs : Nat} {nresults : Wanted} {isTailcall : Bool} {st : Status}
    (hr : L.runCCall program a cl funcIdx nargs nresults isTailcall = .ok st L₁) :
    ∃ L₂, finishC a th cl funcIdx nargs nresults
      (program.cfunc cl (L.entered a cl funcIdx nargs isTailcall)) = .ok st L₂ ∧
      L₁ = L₂.decrCcalls a := by
  unfold runCCall at hr
  simp only [hth] at hr
  split at hr
  · contradiction
  obtain hincr | ⟨e, hincr⟩ := L.incrCcalls_cases a
  · simp only [hincr, runCFrame] at hr
    unfold entered
    cases hf : finishC a th cl funcIdx nargs nresults (program.cfunc cl
        ((L.countCall a).enterC a cl funcIdx nargs isTailcall)) with
    | error e L₂ =>
        rw [hf] at hr
        contradiction
    | ok st' L₂ =>
        rw [hf] at hr
        cases hr
        exact ⟨L₂, rfl, rfl⟩
  · rw [hincr] at hr
    contradiction

end State

end Luatier
