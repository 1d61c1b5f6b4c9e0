import Luatier.Lib.Machine
import Luatier.Vm.FrameEntry

/-!
# Where a call finds room for its frame

Every call knows the size of the stack when it comes to `push_lua_frame`.  The
frame is set up within the stack unless the parameters reach beyond that size.
-/

namespace Luatier

open Cells Thread

def Thread.CcallsOverflow (th : Thread) : Prop :=
  th.nCcalls + 1 = maxCcalls ∨ maxCcalls + maxCcalls / 8 ≤ th.nCcalls + 1

structure Setup where
  funcIdx : Nat
  nargs : Nat
  callee : TValue
  /-- The slots of the stack. -/
  size : Nat
  /-- The frames below the one to be pushed. -/
  frames : Nat
  /-- `call_closure` makes the call. -/
  nested : Bool

namespace Setup

/-- `meta_call` inserts the metamethod. -/
def withMm (s : Setup) (f : Addr) : Setup where
  funcIdx := s.funcIdx
  nargs := s.nargs + 1
  callee := .function f
  size := grown s.size (s.funcIdx + 2 + s.nargs)
  frames := s.frames
  nested := true

def resolve (L : State) (s : Setup) : Option Addr × Setup :=
  match s.callee with
  | .function f => (some f, s)
  | v =>
      match (L.getMetamethod v .call).1 with
      | .function mm => (some mm, s.withMm mm)
      | _ => (none, s)

/-- The call raises an error instead of pushing a frame. -/
def TooDeep (s : Setup) (th : Thread) : Prop :=
  100000 < s.frames ∨ s.nested = true ∧ th.CcallsOverflow

def HasRoom (s : Setup) (p : Proto) : Prop := s.funcIdx + p.numparams ≤ s.size

end Setup

namespace State

def TopFits (L : State) (a : Addr) : Prop :=
  ∀ th, L.thread? a = some th → th.top ≤ th.stack.length

/-- The registers of the frame on top are slots of the stack. -/
def RegistersFit (L : State) (a : Addr) : Prop :=
  ∃ th fr p, L.thread? a = some th ∧ th.frames.getLast? = some fr ∧
    fr.proto.bind L.proto? = some p ∧
    fr.base + max p.maxstack p.numparams ≤ th.stack.length

end State

namespace Entry

/-- What `call_closure` has done when it pushes the frame, by the state before. -/
def setup (L : State) (th : Thread) : Entry → Setup
  | .call ra b _ _ =>
      let callBase := th.base + ra
      let nargs := th.argCount callBase b
      { funcIdx := callBase
        nargs
        callee := th.slot callBase
        size := grown (grown th.stack.length (callBase + 1 + nargs + 8)) (L.reloadSize th)
        frames := th.frames.length
        nested := false }
  | .tailcall ra b _ =>
      let nargs := th.argCount (th.base + ra) b
      { funcIdx := th.base
        nargs
        callee := th.slot (th.base + ra)
        size := grown (grown th.stack.length (L.liveRegsTop th + nargs + 1 + 8))
          (th.base + 1 + nargs + 8)
        frames := th.frames.length - 1
        nested := false }
  | .tforcall ra c _ =>
      { funcIdx := th.base + ra + 3
        nargs := 2
        callee := th.slot (th.base + ra)
        size := grown th.stack.length (th.base + ra + 3 + 3 + c)
        frames := th.frames.length
        nested := true }
  | .invokeMm f args nout =>
      { funcIdx := L.liveRegsTop th
        nargs := args.length
        callee := .function f
        size := grown th.stack.length (L.liveRegsTop th + 1 + args.length + nout + 8)
        frames := th.frames.length
        nested := false }
  | .callMm f args nout =>
      { funcIdx := L.liveRegsTop th
        nargs := args.length
        callee := .function f
        size := grown th.stack.length (L.liveRegsTop th + 1 + args.length + nout + 8)
        frames := th.frames.length
        nested := true }
  | .closure f nargs _ =>
      { funcIdx := th.top - nargs - 1
        nargs
        callee := .function f
        size := th.stack.length
        frames := th.frames.length
        nested := true }

/--
What the callers see to: a tail call names registers of its frame, and native
code has pushed the function and its arguments.
-/
def Proper (L : State) (th : Thread) : Entry → Prop
  | .tailcall ra b _ => th.frames ≠ [] ∧ ra + max b 1 ≤ L.frameSize th
  | .closure _ nargs _ => nargs < th.top
  | _ => True

/-- The parameters of the function that is called find room, or no frame is pushed. -/
def Fits (L : State) (th : Thread) (e : Entry) : Prop :=
  ∀ f p, ((e.setup L th).resolve L).1 = some f → L.luaProto? f = some p →
    ((e.setup L th).resolve L).2.TooDeep th ∨
      ((e.setup L th).resolve L).2.HasRoom p

end Entry

/-! ## How a call ends -/

namespace Setup

/-- A call of a function with the prototype `p?` that returns. -/
def Returned (a : Addr) (s : Setup) (p? : Option Proto) (deep : Prop) :
    Entered → State → Prop
  | .lua, L' => (∃ p, p? = some p ∧ ¬ deep ∧ s.HasRoom p) ∧ L'.TopFits a ∧
      L'.RegistersFit a
  | .native _ _ _ _ _, L' => p? = none ∧ L'.TopFits a

def Stopped (a : Addr) (s : Setup) (p? : Option Proto) (deep : Prop) :
    Stop → State → Prop
  | .raised _, L' => (p? = none ∨ deep) ∧ L'.TopFits a
  | .outOfBounds _ _, _ => ∃ p, p? = some p ∧ ¬ deep ∧ ¬ s.HasRoom p

def Makes (a : Addr) (s : Setup) (p? : Option Proto) (deep : Prop)
    (m : OnState Entered) (L : State) : Prop :=
  Ends m L (s.Returned a p? deep) (s.Stopped a p? deep)

end Setup

/-! ## From the flat call up -/

namespace State

variable {L L' : State} {a : Addr} {th : Thread}

theorem topFits_of (hth : L.thread? a = some th) (htop : th.top ≤ th.stack.length) :
    L.TopFits a := by
  intro th' hth'
  obtain rfl := Option.some.inj (hth.symm.trans hth')
  exact htop

end State

namespace Thread

/-- After the push the registers of the frame are slots, and the top is above them. -/
theorem pushLuaFrame_fits (th : Thread) (cl protoAddr : Addr) (p : Proto)
    (funcIdx nargs : Nat) (nresults : Wanted) (isTailcall : Bool) :
    (th.pushLuaFrame cl protoAddr p funcIdx nargs nresults isTailcall).top =
        funcIdx + max p.maxstack p.numparams ∧
      funcIdx + max p.maxstack p.numparams + 8 ≤
        (th.pushLuaFrame cl protoAddr p funcIdx nargs nresults isTailcall).stack.length := by
  refine ⟨rfl, ?_⟩
  simp only [pushLuaFrame, length_fillNil, length_ensureStack]
  exact grown_ge _ _

end Thread

namespace Setup

open OnState State

variable {L : State} {a f : Addr} {th : Thread} {s : Setup} {p? : Option Proto}
  {deep deep' : Prop} {m : OnState Entered}

theorem makes_congr {m' : OnState Entered} {L' : State} (heq : m L = m' L')
    (hdeep : deep' ↔ deep) (h : s.Makes a p? deep' m' L') : s.Makes a p? deep m L := by
  rw [← propext hdeep]
  exact h.congr heq

theorem makes_raise {e : String} {L' : State} (heq : m L = .error (.raised e) L')
    (hfits : L'.TopFits a) (hwhy : p? = none ∨ deep) : s.Makes a p? deep m L := by
  unfold Makes Ends
  rw [heq]
  exact ⟨hwhy, hfits⟩

theorem enter_makes (f : Addr) (nresults : Wanted) (isTailcall : Bool)
    (hth : L.thread? a = some th) (hsize : th.stack.length = s.size)
    (hframes : th.frames.length = s.frames) (htop : th.top ≤ th.stack.length)
    (hargs : s.funcIdx + 1 + s.nargs ≤ s.size) :
    s.Makes a (L.luaProto? f) (100000 < s.frames)
      (enter a f s.funcIdx s.nargs nresults isTailcall) L := by
  have hfits := topFits_of hth htop
  cases hp : L.luaProto? f with
  | none =>
      unfold Makes Ends
      obtain ⟨e, heq⟩ | heq := enter_of_none s.funcIdx s.nargs nresults isTailcall hp
      · rw [heq]
        exact ⟨Or.inl rfl, hfits⟩
      · rw [heq]
        exact ⟨rfl, hfits⟩
  | some p =>
      obtain ⟨protoAddr, hproto, heq⟩ :=
        enter_of_some s.funcIdx s.nargs nresults isTailcall hp
      unfold Makes Ends
      rw [heq]
      by_cases hcap : 100000 < th.frames.length
      · rw [bind_of_error (onThread_error hth (OnStack.pushLuaFrame_capped hcap))]
        exact ⟨Or.inr (hframes ▸ hcap), topFits_of (thread?_update hth _) htop⟩
      by_cases hroom : s.HasRoom p
      · rw [onThread_bind hth (OnStack.pushLuaFrame_ok (by omega) (by omega)
          (by rw [hsize]; exact hroom))]
        obtain ⟨htop', hlen⟩ := th.pushLuaFrame_fits f protoAddr p s.funcIdx s.nargs
          nresults isTailcall
        refine ⟨⟨p, rfl, hframes ▸ hcap, hroom⟩, topFits_of (thread?_update hth _) (by omega),
          _, _, p, thread?_update hth _, List.getLast?_concat, ?_, ?_⟩
        · show (L.updateThread a _).proto? protoAddr = some p
          rw [proto?_updateThread, hproto]
        · show s.funcIdx + max p.maxstack p.numparams ≤ _
          omega
      · have hfull : th.stack.length < s.funcIdx + p.numparams := by
          rw [hsize]
          exact Nat.not_le.mp hroom
        obtain ⟨th', hfault⟩ :=
          OnStack.pushLuaFrame_outOfBounds (Nat.not_lt.mp hcap) (hsize ▸ hargs) hfull
        rw [bind_of_error (onThread_error hth hfault)]
        exact ⟨p, rfl, hframes ▸ hcap, hroom⟩

theorem Makes.of_none {L' : State} {s' : Setup} (h : s'.Makes a none deep' m L') :
    s.Makes a none deep m L' := by
  apply Ends.mono h
  · intro r L'' hr
    cases r with
    | lua =>
        obtain ⟨⟨p, hp, -⟩, -⟩ := hr
        exact nomatch hp
    | native => exact hr
  · intro stop L'' hstop
    cases stop with
    | raised => exact ⟨Or.inl rfl, hstop.2⟩
    | outOfBounds =>
        obtain ⟨p, hp, -⟩ := hstop
        exact nomatch hp

theorem incrCcalls_overflow (hth : L.thread? a = some th) :
    (¬ th.CcallsOverflow ∧ L.incrCcalls a = .ok () (L.countCall a)) ∨
      (th.CcallsOverflow ∧ ∃ e, L.incrCcalls a = .error e (L.countCall a)) := by
  have hth' : (L.countCall a).thread? a = some th.countCall := thread?_update hth _
  unfold incrCcalls CcallsOverflow
  simp only [hth', Thread.countCall]
  by_cases hmax : th.nCcalls + 1 = maxCcalls
  · right
    simp [hmax]
  · by_cases hover : maxCcalls + maxCcalls / 8 ≤ th.nCcalls + 1
    · right
      simp [hmax, hover]
    · left
      simp [hmax, hover]

theorem enterClosure_makes (f : Addr) (nresults : Wanted) (hth : L.thread? a = some th)
    (hsize : th.stack.length = s.size) (hframes : th.frames.length = s.frames)
    (htop : th.top = s.funcIdx + 1 + s.nargs) (hargs : s.funcIdx + 1 + s.nargs ≤ s.size)
    (hnested : s.nested = true) :
    s.Makes a (L.luaProto? f) (s.TooDeep th)
      (enterClosure a f s.nargs nresults) L := by
  have hidx : th.top - s.nargs - 1 = s.funcIdx := by omega
  cases hp : (L.closure? f).bind (·.proto) with
  | none =>
      have heq : enterClosure a f s.nargs nresults L =
          enter a f s.funcIdx s.nargs nresults false L := by
        unfold enterClosure
        rw [thread_bind hth, if_neg (by omega), get_bind]
        simp only [hp, hidx]
      have hnone : L.luaProto? f = none := by
        unfold State.luaProto?
        cases hf : L.closure? f with
        | none => rfl
        | some c =>
            rw [hf, Option.bind_some] at hp
            rw [Option.bind_some, hp, Option.bind_none]
      have hflat := enter_makes f nresults false hth hsize hframes (by omega) hargs
      rw [hnone] at hflat ⊢
      exact hflat.of_none.congr heq
  | some protoAddr =>
      have heq : enterClosure a f s.nargs nresults L =
          (do
            ofResult (·.incrCcalls a)
            enter a f s.funcIdx s.nargs nresults false : OnState Entered) L := by
        unfold enterClosure
        rw [thread_bind hth, if_neg (by omega), get_bind]
        simp only [hp, hidx]
      have hth' : (L.countCall a).thread? a = some th.countCall := thread?_update hth _
      have hsame : (L.countCall a).luaProto? f = L.luaProto? f :=
        luaProto?_updateThread L a _ f
      obtain ⟨hfree, hincr⟩ | ⟨hover, e, hincr⟩ := incrCcalls_overflow hth
      · have hbind : (do
            ofResult (·.incrCcalls a)
            enter a f s.funcIdx s.nargs nresults false : OnState Entered) L =
              enter a f s.funcIdx s.nargs nresults false (L.countCall a) :=
          bind_of_ok (a := ()) (by simp only [ofResult, hincr])
        rw [← hsame]
        apply makes_congr (heq.trans hbind)
        · show 100000 < s.frames ↔ s.TooDeep th
          simp only [TooDeep, hfree, and_false, or_false]
        · exact enter_makes f nresults false hth' hsize hframes
            (by show th.top ≤ th.stack.length; omega) hargs
      · unfold Makes Ends
        rw [heq, bind_of_error (show ofResult (·.incrCcalls a) L =
          .error (.raised e) (L.countCall a) by simp only [ofResult, hincr])]
        refine ⟨Or.inr (Or.inr ⟨hnested, hover⟩), topFits_of hth' ?_⟩
        show th.top ≤ th.stack.length
        omega

theorem enterMeta_makes (nresults : Wanted) (e : String) (hth : L.thread? a = some th)
    (hsize : th.stack.length = s.size) (hframes : th.frames.length = s.frames)
    (htop : th.top ≤ th.stack.length)
    (hv : ∀ f, s.callee ≠ .function f) :
    (s.resolve L).2.Makes a ((s.resolve L).1.bind L.luaProto?) ((s.resolve L).2.TooDeep th)
      (enterMeta a s.callee s.funcIdx s.nargs nresults e) L := by
  have hsame := L.getMetamethod_sameCalls s.callee .call
  have hresolve : s.resolve L =
      match (L.getMetamethod s.callee .call).1 with
      | .function mm => (some mm, s.withMm mm)
      | _ => (none, s) := by
    unfold resolve
    cases hcallee : s.callee with
    | function f => exact absurd hcallee (hv f)
    | _ => rfl
  have hbind : enterMeta a s.callee s.funcIdx s.nargs nresults e L =
      (match (L.getMetamethod s.callee .call).1 with
      | .function f => do
          onThread a (OnStack.insertMm s.funcIdx s.nargs f)
          enterClosure a f (s.nargs + 1) nresults
      | _ => throw (.raised e) : OnState Entered) (L.getMetamethod s.callee .call).2 := rfl
  rw [hresolve]
  generalize L.getMetamethod s.callee .call = r at hsame hbind
  obtain ⟨mm, L₁⟩ := r
  have hth₁ : L₁.thread? a = some th := by rw [hsame.thread?, hth]
  cases mm with
  | function f =>
      have hctl := SameControl.insertMm th s.funcIdx s.nargs f
      have hlen : (th.insertMm s.funcIdx s.nargs f).stack.length =
          grown th.stack.length (s.funcIdx + 2 + s.nargs) := by
        simp [Thread.insertMm]
      have hgrown := grown_ge th.stack.length (s.funcIdx + 2 + s.nargs)
      have hcalls : (th.insertMm s.funcIdx s.nargs f).CcallsOverflow ↔ th.CcallsOverflow := by
        unfold CcallsOverflow
        rw [hctl.nCcalls]
      have hclosure := enterClosure_makes (s := s.withMm f) f nresults
        (thread?_update hth₁ fun _ => th.insertMm s.funcIdx s.nargs f)
        (by rw [hlen, hsize]; rfl) (by rw [hctl.frames, hframes]; rfl)
        (show s.funcIdx + 2 + s.nargs = s.funcIdx + 1 + (s.nargs + 1) by omega)
        (show s.funcIdx + 1 + (s.nargs + 1) ≤ grown s.size (s.funcIdx + 2 + s.nargs) by
          rw [← hsize]; omega) rfl
      rw [luaProto?_updateThread, luaProto?_congr hsame.proto? hsame.closure?] at hclosure
      apply makes_congr _ _ hclosure
      · rw [hbind]
        exact onThread_bind hth₁ (OnStack.insertMm_ok th s.funcIdx s.nargs f)
      · simp only [TooDeep, hcalls]
  | _ => exact makes_raise hbind (topFits_of hth₁ htop) (Or.inl rfl)

theorem callValue_makes (nresults : Wanted) (e : String) (hth : L.thread? a = some th)
    (hsize : th.stack.length = s.size) (hframes : th.frames.length = s.frames)
    (htop : th.top ≤ th.stack.length) {k : Addr → OnState Entered}
    (hk : ∀ f, s.Makes a (L.luaProto? f) (s.TooDeep th) (k f) L) :
    (s.resolve L).2.Makes a ((s.resolve L).1.bind L.luaProto?) ((s.resolve L).2.TooDeep th)
      (callValue s.callee k (enterMeta a s.callee s.funcIdx s.nargs nresults e)) L := by
  by_cases hv : ∃ f, s.callee = .function f
  · obtain ⟨f, hv⟩ := hv
    have hresolve : s.resolve L = (some f, s) := by
      unfold resolve
      rw [hv]
    rw [hresolve, hv]
    exact hk f
  · have hv' : ∀ f, s.callee ≠ .function f := fun f h => hv ⟨f, h⟩
    rw [callValue_of_ne _ _ hv']
    exact enterMeta_makes nresults e hth hsize hframes htop hv'

end Setup

/-! ## What the lookup of a metamethod depends on -/

namespace State

/-- States in which every value has the same metatable, with the same entries. -/
structure SameMetatables (L L' : State) : Prop where
  table? : L'.table? = L.table?
  userdata? : L'.userdata? = L.userdata?
  string? : L'.string? = L.string?
  typeMt : L'.typeMt = L.typeMt
  tmNames : L'.tmNames = L.tmNames

namespace SameMetatables

variable {L L₁ L' : State}

theorem refl (L : State) : SameMetatables L L := ⟨rfl, rfl, rfl, rfl, rfl⟩

theorem trans (h₁ : SameMetatables L L₁) (h₂ : SameMetatables L₁ L') :
    SameMetatables L L' :=
  ⟨h₂.table?.trans h₁.table?, h₂.userdata?.trans h₁.userdata?,
    h₂.string?.trans h₁.string?, h₂.typeMt.trans h₁.typeMt, h₂.tmNames.trans h₁.tmNames⟩

theorem getMetamethod (h : SameMetatables L L') (v : TValue) (e : TmEvent) :
    (L'.getMetamethod v e).1 = (L.getMetamethod v e).1 := by
  have hinterned : L'.interned = L.interned := by
    unfold interned
    rw [h.string?]
  have hmeta : L'.getMetatable v = L.getMetatable v := by
    unfold getMetatable
    rw [h.table?, h.userdata?, h.typeMt]
  unfold State.getMetamethod getTm
  rw [hmeta, h.table?, h.tmNames, hinterned]
  split
  · rfl
  · split
    · rfl
    · split
      · rfl
      · simp only
        split <;> rfl

theorem updateCell {a : Addr} {f : Object → Object}
    (htable : ∀ o, L.object? a = some o → ∀ t, f o = .table t ↔ o = .table t)
    (huserdata : ∀ o, L.object? a = some o → ∀ u, f o = .userdata u ↔ o = .userdata u)
    (hstring : ∀ o, L.object? a = some o → ∀ s, f o = .string s ↔ o = .string s) :
    SameMetatables L (L.updateCell a f) := by
  have hobject : ∀ b x, (∀ o, L.object? a = some o → (f o = x ↔ o = x)) →
      ((L.updateCell a f).object? b = some x ↔ L.object? b = some x) := by
    intro b x hx
    rw [object?_updateCell]
    by_cases hb : b = a
    · subst hb
      rw [if_pos rfl]
      cases ho : L.object? b with
      | none => rfl
      | some o => simpa using hx o ho
    · rw [if_neg hb]
  refine ⟨?_, ?_, ?_, rfl, rfl⟩
  · funext b
    apply Option.ext
    intro t
    rw [table?_eq_some, table?_eq_some]
    exact hobject b _ fun o ho => htable o ho t
  · funext b
    apply Option.ext
    intro u
    rw [userdata?_eq_some, userdata?_eq_some]
    exact hobject b _ fun o ho => huserdata o ho u
  · funext b
    apply Option.ext
    intro s
    rw [string?_eq_some, string?_eq_some]
    exact hobject b _ fun o ho => hstring o ho s

theorem updateThread (L : State) (a : Addr) (f : Thread → Thread) :
    SameMetatables L (L.updateThread a f) := by
  apply updateCell
  all_goals
    rintro o - x
    cases o <;> simp [Object.mapThread]

theorem barriers (parent : Addr) (values : List TValue) :
    ∀ L : State, SameMetatables L (L.barriers parent values) := by
  have hone : ∀ (L : State) v, SameMetatables L (L.barrier parent v) := by
    intro L v
    rw [L.barrier_gc parent v]
    exact ⟨rfl, rfl, rfl, rfl, rfl⟩
  induction values with
  | nil => exact fun L => .refl L
  | cons v values ih => exact fun L => (hone L v).trans (ih (L.barrier parent v))

theorem closeUpvals (L : State) (a : Addr) (level : Nat) :
    SameMetatables L (L.closeUpvals a level) := by
  have hone : ∀ (L : State) u, SameMetatables L (L.closeUpval u) := by
    intro L u
    unfold closeUpval
    split
    · rename_i uv hu
      unfold upvalClose
      split
      · refine trans (updateCell ?_ ?_ ?_) (barriers u _ _)
        all_goals
          intro o ho x
          rw [upval?_eq_some.mp hu] at ho
          obtain rfl := Option.some.inj ho
          simp
      · exact .refl L
    · exact .refl L
  have hfold : ∀ (us : List Addr) (L : State), SameMetatables L (us.foldl closeUpval L) := by
    intro us
    induction us with
    | nil => exact fun L => .refl L
    | cons u us ih => exact fun L => (hone L u).trans (ih _)
  unfold State.closeUpvals
  split
  · exact .refl L
  · exact (hfold _ L).trans (updateThread _ a _)

end SameMetatables

end State

/-! ## Every way to call -/

/-- From `L` on, the function and the arguments of the call were put in place. -/
structure Setup.Placed (s : Setup) (L : State) (a : Addr) (th : Thread) (L₁ : State)
    (th₁ : Thread) : Prop where
  same : State.SameMetatables L L₁
  proto? : L₁.proto? = L.proto?
  closure? : L₁.closure? = L.closure?
  thread : L₁.thread? a = some th₁
  size : th₁.stack.length = s.size
  frames : th₁.frames.length = s.frames
  top : th₁.top = s.funcIdx + 1 + s.nargs
  room : s.funcIdx + 1 + s.nargs ≤ s.size
  nCcalls : th₁.nCcalls = th.nCcalls

namespace Setup

open OnState State

variable {L L₁ : State} {a f : Addr} {th th₁ : Thread} {s : Setup} {m : OnState Entered}

theorem resolve_congr (s : Setup) (h : SameMetatables L L₁) :
    s.resolve L₁ = s.resolve L := by
  unfold resolve
  split
  · rfl
  · rw [h.getMetamethod]

namespace Placed

theorem of_thread (hth : L.thread? a = some th) (hctl : th.SameControl th₁)
    (hsize : th₁.stack.length = s.size) (hframes : th.frames.length = s.frames)
    (htop : th₁.top = s.funcIdx + 1 + s.nargs) (hroom : s.funcIdx + 1 + s.nargs ≤ s.size) :
    s.Placed L a th (L.updateThread a fun _ => th₁) th₁ where
  same := .updateThread L a _
  proto? := proto?_updateThread L a _
  closure? := closure?_updateThread L a _
  thread := thread?_update hth _
  size := hsize
  frames := by rw [hctl.frames, hframes]
  top := htop
  room := hroom
  nCcalls := hctl.nCcalls

variable (h : s.Placed L a th L₁ th₁)
include h

theorem top_le : th₁.top ≤ th₁.stack.length := by
  rw [h.top, h.size]
  exact h.room

theorem luaProto? (f : Addr) : L₁.luaProto? f = L.luaProto? f :=
  luaProto?_congr h.proto? h.closure? f

theorem tooDeep (s' : Setup) : s'.TooDeep th₁ ↔ s'.TooDeep th := by
  simp only [TooDeep, CcallsOverflow, h.nCcalls]

theorem enter (hflat : s.nested = false) (f : Addr) (nresults : Wanted)
    (isTailcall : Bool) :
    s.Makes a (L.luaProto? f) (s.TooDeep th)
      (enter a f s.funcIdx s.nargs nresults isTailcall) L₁ := by
  rw [← h.luaProto? f]
  apply makes_congr rfl _ (enter_makes f nresults isTailcall h.thread h.size h.frames
    h.top_le h.room)
  simp [TooDeep, hflat]

theorem enterClosure (hnested : s.nested = true) (f : Addr) (nresults : Wanted) :
    s.Makes a (L.luaProto? f) (s.TooDeep th) (enterClosure a f s.nargs nresults) L₁ := by
  rw [← h.luaProto? f]
  exact makes_congr rfl (h.tooDeep s)
    (enterClosure_makes f nresults h.thread h.size h.frames h.top h.room hnested)

theorem callValue (nresults : Wanted) (e : String) {k : Addr → OnState Entered}
    (hk : ∀ f, s.Makes a (L.luaProto? f) (s.TooDeep th) (k f) L₁) :
    (s.resolve L).2.Makes a ((s.resolve L).1.bind L.luaProto?) ((s.resolve L).2.TooDeep th)
      (callValue s.callee k (enterMeta a s.callee s.funcIdx s.nargs nresults e)) L₁ := by
  have hlua : L₁.luaProto? = L.luaProto? := funext h.luaProto?
  rw [← resolve_congr s h.same, ← hlua]
  apply makes_congr rfl (h.tooDeep _)
  apply callValue_makes nresults e h.thread h.size h.frames h.top_le
  intro f
  rw [hlua]
  exact makes_congr rfl (h.tooDeep s).symm (hk f)

end Placed

end Setup

namespace Entry

open OnState State Setup

variable {L : State} {a : Addr} {th : Thread}

def Makes (L : State) (a : Addr) (th : Thread) (e : Entry) : Prop :=
  ((e.setup L th).resolve L).2.Makes a
    (((e.setup L th).resolve L).1.bind L.luaProto?)
    (((e.setup L th).resolve L).2.TooDeep th) (enterBy a e) L

theorem call_makes (hth : L.thread? a = some th) (ra b : Nat) (nresults : Wanted)
    (e : String) : (Entry.call ra b nresults e).Makes L a th := by
  have hsize := grown_ge th.stack.length
    (th.base + ra + 1 + th.argCount (th.base + ra) b + 8)
  have hgrown := le_grown (grown th.stack.length
    (th.base + ra + 1 + th.argCount (th.base + ra) b + 8)) (L.reloadSize th)
  have hplaced := Placed.of_thread (s := setup L th (.call ra b nresults e)) hth
    ((SameControl.raiseTop th (th.base + ra) (th.argCount (th.base + ra) b)).trans
      (SameControl.ensureStack _ (L.reloadSize th)))
    ((length_ensureStack _ _).trans
      (congrArg (grown · (L.reloadSize th)) (length_ensureStack th _)))
    rfl (top_ensureStack _ _) (by simp only [setup]; omega)
  apply makes_congr _ Iff.rfl (hplaced.callValue (some (nresults.getD 1)) e
    fun f => hplaced.enter rfl f nresults false)
  show enterCall a ra b nresults e L = _
  unfold enterCall
  rw [thread_bind hth, OnState.get_bind, onThread_bind hth (OnStack.raiseTop_ok _ _ _ _)]
  rfl

theorem tforcall_makes (hth : L.thread? a = some th) (ra c : Nat) (e : String) :
    (Entry.tforcall ra c e).Makes L a th := by
  have hsize := grown_ge th.stack.length (th.base + ra + 3 + 3 + c)
  have hplaced := Placed.of_thread (s := setup L th (.tforcall ra c e)) hth
    (SameControl.copyIterator th (th.base + ra + 3) c)
    ((length_move _ _ _ _).trans (length_ensureStack _ _)) rfl rfl
    (by simp only [setup]; omega)
  apply makes_congr _ Iff.rfl (hplaced.callValue (some c) e
    fun f => hplaced.enterClosure rfl f (some c))
  show enterTforcall a ra c e L = _
  unfold enterTforcall
  rw [thread_bind hth, onThread_bind hth (OnStack.copyIterator_ok _ _ _)]
  rfl

theorem enterMm_eq (hth : L.thread? a = some th) (f : Addr) (args : List TValue)
    (nout : Nat) (k : Nat → OnState Entered) :
    enterMm a f args nout k L = k (L.liveRegsTop th) (L.updateThread a fun _ =>
      th.pushMm (L.liveRegsTop th) (.function f) args nout) := by
  unfold enterMm
  rw [thread_bind hth, OnState.get_bind, onThread_bind hth (OnStack.pushMm_ok _ _ _ _ _)]

theorem pushMm_placed (hth : L.thread? a = some th) (f : Addr) (args : List TValue)
    (nout : Nat) {s : Setup} (hs : s.funcIdx = L.liveRegsTop th ∧ s.nargs = args.length ∧
      s.frames = th.frames.length ∧
      s.size = grown th.stack.length (L.liveRegsTop th + 1 + args.length + nout + 8)) :
    s.Placed L a th (L.updateThread a fun _ =>
        th.pushMm (L.liveRegsTop th) (.function f) args nout)
      (th.pushMm (L.liveRegsTop th) (.function f) args nout) := by
  obtain ⟨hidx, hnargs, hframes, hsize⟩ := hs
  have hgrown := grown_ge th.stack.length (L.liveRegsTop th + 1 + args.length + nout + 8)
  apply Placed.of_thread hth (SameControl.pushMm th _ _ args nout)
  · rw [hsize]
    exact (length_overwrite _ _).trans (length_ensureStack _ _)
  · exact hframes.symm
  · rw [hidx, hnargs]
    rfl
  · omega

theorem invokeMm_makes (hth : L.thread? a = some th) (f : Addr) (args : List TValue)
    (nout : Nat) : (Entry.invokeMm f args nout).Makes L a th := by
  have hplaced := pushMm_placed (s := setup L th (.invokeMm f args nout)) hth f args nout
    ⟨rfl, rfl, rfl, rfl⟩
  apply makes_congr _ Iff.rfl (hplaced.enter rfl f (some nout) false)
  exact enterMm_eq hth f args nout fun callBase =>
    enter a f callBase args.length (some nout) false

theorem callMm_makes (hth : L.thread? a = some th) (f : Addr) (args : List TValue)
    (nout : Nat) : (Entry.callMm f args nout).Makes L a th := by
  have hplaced := pushMm_placed (s := setup L th (.callMm f args nout)) hth f args nout
    ⟨rfl, rfl, rfl, rfl⟩
  apply makes_congr _ Iff.rfl (hplaced.enterClosure rfl f (some nout))
  exact enterMm_eq hth f args nout fun _ => enterClosure a f args.length (some nout)

theorem closure_makes (hth : L.thread? a = some th) (htop : th.top ≤ th.stack.length)
    (f : Addr) {nargs : Nat} (hargs : nargs < th.top) (nresults : Wanted) :
    (Entry.closure f nargs nresults).Makes L a th := by
  have hplaced : (setup L th (.closure f nargs nresults)).Placed L a th L th := by
    refine ⟨.refl L, rfl, rfl, hth, rfl, rfl, ?_, ?_, rfl⟩
    · simp only [setup]
      omega
    · simp only [setup]
      omega
  exact hplaced.enterClosure rfl f nresults

theorem tailcall_below {ra b : Nat} {e : String}
    (hproper : (Entry.tailcall ra b e).Proper L th) :
    th.base ≤ L.liveRegsTop th ∧
      th.base + ra + th.argCount (th.base + ra) b + 1 ≤ L.liveRegsTop th := by
  obtain ⟨hne, hsize⟩ := hproper
  obtain ⟨fr, hlast⟩ : ∃ fr, th.frames.getLast? = some fr :=
    ⟨_, List.getLast?_eq_some_getLast hne⟩
  have hbase : th.base = fr.base := by
    rw [Thread.base, hlast]
    rfl
  obtain ⟨htop, hwindows⟩ := L.live_le_liveRegsTop th
  have hwindow := hwindows fr (List.mem_of_getLast? hlast)
  have hpos : 0 < L.frameSize th := by omega
  unfold frameSize at hsize hpos
  rw [hlast, Option.bind_some] at hsize hpos
  unfold windowEnd at hwindow
  unfold argCount
  cases hp : fr.proto.bind L.proto? with
  | none =>
      rw [hp] at hpos
      exact absurd hpos (Nat.lt_irrefl 0)
  | some p =>
      rw [hp, Option.map_some, Option.getD_some] at hsize
      rw [hp] at hwindow
      simp only at hwindow
      split <;> omega

theorem tailcall_makes (hth : L.thread? a = some th) {ra b : Nat} {e : String}
    (hproper : (Entry.tailcall ra b e).Proper L th) :
    (Entry.tailcall ra b e).Makes L a th := by
  obtain ⟨hdest, hsrc⟩ := tailcall_below hproper
  have hsetup : setup L th (.tailcall ra b e) =
      ⟨th.base, th.argCount (th.base + ra) b, th.slot (th.base + ra),
        grown (grown th.stack.length
          (L.liveRegsTop th + th.argCount (th.base + ra) b + 1 + 8))
          (th.base + 1 + th.argCount (th.base + ra) b + 8), th.frames.length - 1, false⟩ := rfl
  have henter : enterBy a (.tailcall ra b e) = enterTailcall a ra b e := rfl
  unfold Makes
  rw [henter, hsetup]
  unfold enterTailcall
  generalize hnargs : th.argCount (th.base + ra) b = nargs at hsrc
  generalize htmp : L.liveRegsTop th = tmp at hdest hsrc
  have hsize := grown_ge th.stack.length (tmp + nargs + 1 + 8)
  have hgrown := le_grown (grown th.stack.length (tmp + nargs + 1 + 8))
    (th.base + 1 + nargs + 8)
  have hth₁ := thread?_update hth fun _ => th.slideUp tmp (th.base + ra) nargs
  obtain ⟨-, us, hth₂⟩ := closeUpvals_spec hth₁ th.base 0 []
  obtain ⟨hproto, hclosure⟩ := closeUpvals_functions hth₁ th.base
  have hctl := (SameControl.slideUp th tmp (th.base + ra) nargs).openUpvals us
  have hup : ({ th.slideUp tmp (th.base + ra) nargs with openUpvals := us } :
      Thread).stack.length = grown th.stack.length (tmp + nargs + 1 + 8) :=
    (length_move _ _ _ _).trans (length_ensureStack _ _)
  generalize ({ th.slideUp tmp (th.base + ra) nargs with openUpvals := us } : Thread) = th₂
    at hth₂ hctl hup
  have hdown : OnStack.slideDown th.base tmp nargs th₂ =
      .ok () (th₂.slideDown th.base tmp nargs) :=
    OnStack.slideDown_ok hdest (by omega)
  have hplaced : (⟨th.base, nargs, th.slot (th.base + ra),
      grown (grown th.stack.length (tmp + nargs + 1 + 8)) (th.base + 1 + nargs + 8),
      th.frames.length - 1, false⟩ : Setup).Placed L a th
      (((L.updateThread a fun _ => th.slideUp tmp (th.base + ra) nargs).closeUpvals a
        th.base).updateThread a fun _ => th₂.slideDown th.base tmp nargs)
      (th₂.slideDown th.base tmp nargs) :=
    { same := ((SameMetatables.updateThread L a _).trans (.closeUpvals _ a th.base)).trans
        (.updateThread _ a _)
      proto? := by rw [proto?_updateThread, hproto, proto?_updateThread]
      closure? := by rw [closure?_updateThread, hclosure, closure?_updateThread]
      thread := thread?_update hth₂ _
      size := by
        rw [← hup]
        exact (length_move _ _ _ _).trans (length_ensureStack _ _)
      frames := by
        show th₂.frames.dropLast.length = _
        rw [hctl.frames, List.length_dropLast]
      top := rfl
      room := by
        simp only
        omega
      nCcalls := (nCcalls_ensureStack _ _).trans hctl.nCcalls }
  apply makes_congr _ Iff.rfl (hplaced.callValue
    (some (((th.frames.getLast?.map (·.expectedResults)).getD none).getD 1)) e
    fun f => hplaced.enter rfl f ((th.frames.getLast?.map (·.expectedResults)).getD none) true)
  rw [thread_bind hth, OnState.get_bind]
  simp only [hnargs, htmp]
  rw [onThread_bind hth (OnStack.slideUp_ok hsrc), change_bind, onThread_bind hth₂ hdown]

theorem makes (hth : L.thread? a = some th) (htop : th.top ≤ th.stack.length) {e : Entry}
    (hproper : e.Proper L th) : e.Makes L a th := by
  cases e with
  | call ra b nresults e => exact call_makes hth ra b nresults e
  | tailcall ra b e => exact tailcall_makes hth hproper
  | tforcall ra c e => exact tforcall_makes hth ra c e
  | invokeMm f args nout => exact invokeMm_makes hth f args nout
  | callMm f args nout => exact callMm_makes hth f args nout
  | closure f nargs nresults => exact closure_makes hth htop f hproper nresults

end Entry

/-! ## Runs of a thread -/

/-- What code does to the stack of its thread, but for entering functions. -/
inductive Work : Thread → Thread → Prop
  | push (th : Thread) (v : TValue) : Work th (th.push v)
  | pop (th : Thread) : Work th (th.setTop (th.top - 1))
  | setAbsTop (th : Thread) (n : Nat) : Work th (th.setAbsTop n)
  /-- `ensure_stack`, and a top that it covers. -/
  | growTo (th : Thread) {n top : Nat} (h : top ≤ n) :
      Work th ((th.ensureStack n).setTop top)
  /-- A top that was saved; the stack never shrinks. -/
  | restoreTop {th : Thread} {top : Nat} (h : top ≤ th.stack.length) :
      Work th (th.setTop top)
  | placeResults (th : Thread) (dest src nret placed : Nat) :
      Work th (th.placeResults dest src nret placed)
  | enterC {th : Thread} {funcIdx nargs : Nat} (cl : Addr) (isTailcall : Bool)
      (h : funcIdx + 1 + nargs ≤ th.stack.length) :
      Work th (th.enterC cl funcIdx nargs isTailcall)
  | leaveC (th : Thread) (funcIdx nargs : Nat) (nresults : Wanted)
      (prevBase prevTop resAbs nret : Nat) :
      Work th (th.leaveC funcIdx nargs nresults prevBase prevTop resAbs nret)
  | raiseC {th : Thread} {funcIdx : Nat} (isMain : Bool) (prevBase prevTop : Nat)
      (h : funcIdx ≤ th.stack.length) : Work th (th.raiseC isMain funcIdx prevBase prevTop)
  | yieldC (th : Thread) (funcIdx : Nat) (nresults : Wanted) (resAbs nret : Nat) :
      Work th (th.yieldC funcIdx nresults resAbs nret)
  /-- `coroutine.resume` of a coroutine that has not run. -/
  | restart (th : Thread) :
      Work th { th with stack := List.replicate 64 .nil, frames := [], top := 0 }
  /-- Registers, frames and everything else. -/
  | keep {th th' : Thread} (hsize : th'.stack.length = th.stack.length)
      (htop : th'.top = th.top) : Work th th'

theorem Work.topFits {th th' : Thread} (h : Work th th')
    (htop : th.top ≤ th.stack.length) : th'.top ≤ th'.stack.length := by
  cases h with
  | push v =>
      rw [length_push]
      exact grown_ge _ _
  | pop => exact (Nat.sub_le _ _).trans htop
  | setAbsTop n =>
      rw [length_setAbsTop]
      exact grown_ge _ _
  | growTo hle =>
      show _ ≤ (th.ensureStack _).stack.length
      rw [length_ensureStack]
      exact hle.trans (grown_ge _ _)
  | restoreTop hle => exact hle
  | placeResults dest src nret placed =>
      have hgrown := grown_ge th.stack.length (max (src + nret) (dest + placed) + 8)
      simp only [Thread.placeResults, length_fillNil, length_move, length_ensureStack]
      omega
  | enterC cl isTailcall hle => exact hle
  | leaveC funcIdx nargs nresults prevBase prevTop resAbs nret =>
      have hgrown := grown_ge th.stack.length (funcIdx + nresults.getD nret + 8)
      simp only [Thread.leaveC, length_fillNil, length_move, length_ensureStack]
      omega
  | raiseC isMain prevBase prevTop hle =>
      unfold Thread.raiseC
      simp only
      split
      · rw [length_fillNil]
        exact hle
      · exact hle
  | yieldC funcIdx nresults resAbs nret =>
      have hgrown := grown_ge th.stack.length (funcIdx + 8)
      simp only [Thread.yieldC, length_ensureStack]
      omega
  | restart => exact Nat.zero_le _
  | keep hsize hkeep =>
      rw [hsize, hkeep]
      exact htop

namespace State

open OnState

/-- A thread as it is created: the main thread, or a coroutine with its function. -/
def NewThread (th : Thread) : Prop :=
  th.frames = [] ∧ ((th.stack = List.replicate 256 .nil ∧ th.top = 0) ∨
    ∃ f, th.stack = f :: List.replicate 63 .nil ∧ th.top = 1)

/-- One step as the thread `a` sees it. -/
inductive StackStep (a : Addr) : State → State → Prop
  | work {L : State} {th th' : Thread} (hth : L.thread? a = some th) (h : Work th th') :
      StackStep a L (L.updateThread a fun _ => th')
  | enter {L L' : State} {th : Thread} {e : Entry} {r : Entered}
      (hth : L.thread? a = some th) (hproper : e.Proper L th)
      (h : enterBy a e L = .ok r L') : StackStep a L L'
  | raise {L L' : State} {th : Thread} {e : Entry} {text : String}
      (hth : L.thread? a = some th) (hproper : e.Proper L th)
      (h : enterBy a e L = .error (.raised text) L') : StackStep a L L'
  /-- Other threads, other objects and the collector. -/
  | elsewhere {L L' : State} (h : L'.thread? a = L.thread? a) : StackStep a L L'

/-- A state in a run of the thread `a` from its creation on. -/
def StackReachable (a : Addr) (L : State) : Prop :=
  ∃ L₀ th, L₀.thread? a = some th ∧ NewThread th ∧
    Relation.ReflTransGen (StackStep a) L₀ L

variable {L L' : State} {a : Addr} {th : Thread}

theorem StackStep.topFits (hfits : L.TopFits a) (h : StackStep a L L') : L'.TopFits a := by
  cases h with
  | work hth h =>
      exact topFits_of (thread?_update hth _) (h.topFits (hfits _ hth))
  | @enter _ th e r hth hproper h =>
      have hmakes := Entry.makes hth (hfits th hth) hproper
      unfold Entry.Makes Setup.Makes Ends at hmakes
      rw [h] at hmakes
      cases r with
      | lua => exact hmakes.2.1
      | native => exact hmakes.2
  | @raise _ th e text hth hproper h =>
      have hmakes := Entry.makes hth (hfits th hth) hproper
      unfold Entry.Makes Setup.Makes Ends at hmakes
      rw [h] at hmakes
      exact hmakes.2
  | elsewhere h =>
      intro th hth
      exact hfits th (h.symm.trans hth)

theorem StackReachable.topFits (h : L.StackReachable a) : L.TopFits a := by
  obtain ⟨L₀, th, hth, ⟨-, hnew⟩, hpath⟩ := h
  refine Machine.invariant_of_path (TopFits · a) StackStep.topFits
    (topFits_of hth ?_) hpath
  obtain ⟨hstack, htop⟩ | ⟨f, hstack, htop⟩ := hnew
  · rw [hstack, htop]
    exact Nat.zero_le _
  · rw [hstack, htop]
    exact Nat.succ_le_succ (Nat.zero_le _)

end State

/-! ## Frame entry within the stack -/

namespace Setup.Makes

variable {L : State} {a : Addr} {s : Setup} {p? : Option Proto} {deep : Prop}
  {m : OnState Entered}

theorem inBounds_iff (h : s.Makes a p? deep m L) :
    (∀ i size L', m L ≠ .error (.outOfBounds i size) L') ↔
      ∀ p, p? = some p → deep ∨ s.HasRoom p := by
  unfold Setup.Makes Ends at h
  cases hm : m L with
  | ok r L' =>
      rw [hm] at h
      simp only [ne_eq, reduceCtorEq, not_false_eq_true, implies_true, true_iff]
      intro p hp
      cases r with
      | lua =>
          obtain ⟨⟨p', hp', -, hroom⟩, -⟩ := h
          obtain rfl := Option.some.inj (hp.symm.trans hp')
          exact Or.inr hroom
      | native => exact nomatch h.1.symm.trans hp
  | error stop L' =>
      rw [hm] at h
      cases stop with
      | raised text =>
          simp only [ne_eq, EStateM.Result.error.injEq, reduceCtorEq, false_and,
            not_false_eq_true, implies_true, true_iff]
          intro p hp
          obtain hnone | hdeep := h.1
          · exact nomatch hnone.symm.trans hp
          · exact Or.inl hdeep
      | outOfBounds i size =>
          obtain ⟨p, hp, hdeep, hroom⟩ := h
          constructor
          · intro hall
            exact absurd rfl (hall i size L')
          · intro hall
            obtain hdeep' | hroom' := hall p hp
            · exact absurd hdeep' hdeep
            · exact absurd hroom' hroom

theorem registersFit (h : s.Makes a p? deep m L) {L' : State} (hm : m L = .ok .lua L') :
    L'.RegistersFit a := by
  unfold Setup.Makes Ends at h
  rw [hm] at h
  exact h.2.2

end Setup.Makes

namespace State

open OnState

/--
In any state that a thread reaches and however a function is called there, every
index is below the size of the stack if and only if each parameter has a slot or
the call is too deep; and once the frame is there its registers are slots.
-/
theorem frameEntry_inBounds_iff {L : State} {a : Addr} {th : Thread} {e : Entry}
    (hreach : L.StackReachable a) (hth : L.thread? a = some th)
    (hproper : e.Proper L th) :
    ((∀ i size L', enterBy a e L ≠ .error (.outOfBounds i size) L') ↔ e.Fits L th) ∧
      ∀ L', enterBy a e L = .ok .lua L' → L'.RegistersFit a := by
  have hmakes := Entry.makes hth (hreach.topFits th hth) hproper
  refine ⟨?_, fun L' => hmakes.registersFit⟩
  rw [hmakes.inBounds_iff]
  unfold Entry.Fits
  constructor
  · intro h f p hf hp
    apply h
    rw [hf, Option.bind_some, hp]
  · intro h p hp
    obtain ⟨f, hf, hp⟩ := Option.bind_eq_some_iff.mp hp
    exact h f p hf hp

/-- A new coroutine with a function of so many parameters, as `resume` calls it. -/
def newCoroutine (numparams : Nat) : State where
  current := some 1
  heap :=
    [(1, .thread
      { stack := .function 2 :: List.replicate 63 .nil, top := 1, status := .running }),
    (2, .closure { proto := some 3 }),
    (3, .proto { maxstack := numparams, numparams })]

theorem newCoroutine_reachable (numparams : Nat) : (newCoroutine numparams).StackReachable 1 :=
  ⟨_, _, rfl, ⟨rfl, Or.inr ⟨.function 2, rfl, rfl⟩⟩, .refl⟩

theorem newCoroutine_inBounds_iff (numparams : Nat) :
    (∀ i size L', enterBy 1 (.closure 2 0 none) (newCoroutine numparams) ≠
      .error (.outOfBounds i size) L') ↔ numparams ≤ 64 := by
  have hmakes := Entry.makes (L := newCoroutine numparams) (a := 1)
    (e := .closure 2 0 none) rfl (by decide) (Nat.zero_lt_one)
  have hshallow : ¬ (100000 < 0 ∨ true = true ∧
      (0 + 1 = maxCcalls ∨ maxCcalls + maxCcalls / 8 ≤ 0 + 1)) := by
    decide
  rw [hmakes.inBounds_iff]
  constructor
  · intro h
    obtain hdeep | hroom := h _ rfl
    · exact absurd hdeep hshallow
    · simpa [Setup.HasRoom, Setup.resolve, Entry.setup] using hroom
  · rintro h p hp
    obtain rfl := Option.some.inj hp
    right
    simpa [Setup.HasRoom, Setup.resolve, Entry.setup] using h

theorem frameEntry_inBounds_newCoroutine :
    (∀ i size L', enterBy 1 (.closure 2 0 none) (newCoroutine 3) ≠
      .error (.outOfBounds i size) L') ∧
    ∀ L', enterBy 1 (.closure 2 0 none) (newCoroutine 3) = .ok .lua L' →
      L'.RegistersFit 1 := by
  have h := frameEntry_inBounds_iff (L := newCoroutine 3) (a := 1) (e := .closure 2 0 none)
    (newCoroutine_reachable 3) rfl Nat.zero_lt_one
  refine ⟨h.1.mpr ?_, h.2⟩
  rintro f p hf hp
  obtain rfl := Option.some.inj hf
  obtain rfl := Option.some.inj hp
  right
  simp [Setup.HasRoom, Setup.resolve, Entry.setup]

/-- A coroutine that starts with a function of 65 parameters writes behind its stack. -/
theorem parameters_leave_the_stack :
    ¬ ∀ (L : State) (a : Addr) (th : Thread) (e : Entry), L.StackReachable a →
      L.thread? a = some th → e.Proper L th →
      ∀ i size L', enterBy a e L ≠ .error (.outOfBounds i size) L' := by
  intro h
  have hbounds := (newCoroutine_inBounds_iff 65).mp (h (newCoroutine 65) 1 _
    (.closure 2 0 none) (newCoroutine_reachable 65) rfl Nat.zero_lt_one)
  omega

end State

end Luatier
