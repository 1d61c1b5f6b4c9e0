import Luatier.Vm.Opcodes

/-!
# Interrupted instructions

An instruction whose metamethod runs in a frame of its own, with any number of
yields, is compared with one whose metamethod is back at once.
-/

namespace Luatier

/--
The vectors of the thread that a call has made grow beyond their capacity, so
that what pointed into them points into freed storage.
-/
structure Relocated where
  stack : Bool := false
  frames : Bool := false
  deriving DecidableEq, Repr

/--
A call of a metamethod, by what it does to the state.  In a frame of its own it
runs up to its first yield, and on after each resume.
-/
inductive MmCall where
  | direct (run : State → Result Unit) (moved : Relocated)
  | pushed (first : State → Result Unit) (later : List (State → Result Unit))

namespace MmCall

def effect : MmCall → State → Result Unit
  | .direct run _, L => run L
  | .pushed first later, L =>
      later.foldl (fun r run => r.bind fun _ L => run L) (first L)

def yields : MmCall → Bool
  | .direct _ _ => false
  | .pushed _ later => !later.isEmpty

def isPushed : MmCall → Bool
  | .direct _ _ => false
  | .pushed _ _ => true

def straight (c : MmCall) : MmCall := .direct c.effect {}

@[simp] theorem effect_straight (c : MmCall) : c.straight.effect = c.effect := rfl

end MmCall

/-- How an instruction ends. -/
inductive Ending where
  | done (s : Activation)
  | raised (e : String) (L : State)
  /-- The metamethod is still running. -/
  | waiting
  /-- The interpreter returned with the metamethod's frames on top. -/
  | lost
  /-- The code goes on through a pointer into freed storage, which is undefined. -/
  | wild

def Ending.Same (a : Addr) : Ending → Ending → Prop
  | .done s, .done s' => s.fr = s'.fr ∧ s.L.register a = s'.L.register a
  | .raised e L, .raised e' L' => e = e' ∧ L.register a = L'.register a
  | .waiting, .waiting => True
  | .lost, .lost => True
  | _, _ => False

namespace Chunk

variable (raw : Raw) (a : Addr) (chunk : Chunk)

/-- The instruction that a frame is in is a `CONCAT`. -/
def folds (s : Activation) : Bool :=
  chunk.code[s.fr.savedPc - 1]?.any (·.op == .concat)

/--
What the loops of `CONCAT` hold on to across a direct call has moved: both refer
to the frame, that of `finish_interrupted_op` to the registers, too.
-/
def outdated (completing : Bool) (s : Activation) (moved : Relocated) : Bool :=
  chunk.folds s && (moved.frames || completing && moved.stack)

/-- The rest of an instruction; `completing` in `finish_interrupted_op`. -/
def completeFrom : Bool → List MmCall → OpOutcome → Ending
  | _, _, .done s => .done s
  | _, _, .raised e L => .raised e L
  | _, [], .call _ _ => .waiting
  | _, [], .nested _ _ => .waiting
  | completing, c :: calls, .call s inline =>
      match c.effect s.L with
      | .error e L => .raised e L
      | .ok _ L =>
          match c with
          | .direct _ moved =>
              if chunk.outdated completing s moved then .wild
              else completeFrom completing calls (inline L)
          | .pushed _ _ =>
              -- The frame is on top again, and found pending by the loop.
              completeFrom true calls (finishInterruptedOp raw a chunk (s.withState L))
  | completing, c :: calls, .nested s inline =>
      if c.yields then .lost
      else
        match c.effect s.L with
        | .error e L => .raised e L
        | .ok _ L => completeFrom completing calls (inline L)

/-- The instruction, with the calls that its metamethods turn out to be. -/
def complete (calls : List MmCall) (o : OpOutcome) : Ending :=
  completeFrom raw a chunk false calls o

/-- `CONCAT` makes a direct call that moves what its loop holds on to. -/
inductive Dangles : Bool → List MmCall → OpOutcome → Prop
  | now {completing : Bool} {run : State → Result Unit} {moved : Relocated}
      {calls : List MmCall} {s : Activation} {inline : State → OpOutcome} {L : State}
      (hback : run s.L = .ok () L) (hmoved : chunk.outdated completing s moved = true) :
      Dangles completing (.direct run moved :: calls) (.call s inline)
  | later {completing : Bool} {c : MmCall} {calls : List MmCall} {s : Activation}
      {inline : State → OpOutcome} {L : State} (hback : c.effect s.L = .ok () L)
      (hrest : Dangles (completing || c.isPushed) calls (inline L)) :
      Dangles completing (c :: calls) (.call s inline)

@[simp] theorem completeFrom_done (completing : Bool) (calls : List MmCall)
    (s : Activation) : completeFrom raw a chunk completing calls (.done s) = .done s := by
  cases calls <;> rfl

@[simp] theorem completeFrom_raised (completing : Bool) (calls : List MmCall)
    (e : String) (L : State) :
    completeFrom raw a chunk completing calls (.raised e L) = .raised e L := by
  cases calls <;> rfl

@[simp] theorem complete_done (calls : List MmCall) (s : Activation) :
    complete raw a chunk calls (.done s) = .done s :=
  completeFrom_done raw a chunk false calls s

@[simp] theorem complete_raised (calls : List MmCall) (e : String) (L : State) :
    complete raw a chunk calls (.raised e L) = .raised e L :=
  completeFrom_raised raw a chunk false calls e L

/-- Completion does what the code of the opcode would have gone on with. -/
inductive Faithful : OpOutcome → Prop
  | done (s : Activation) : Faithful (.done s)
  | raised (e : String) (L : State) : Faithful (.raised e L)
  | call (s : Activation) (inline : State → OpOutcome)
      (hsame : ∀ L, inline L = finishInterruptedOp raw a chunk (s.withState L))
      (hnext : ∀ L, Faithful (inline L)) : Faithful (.call s inline)

variable {raw a chunk}

theorem outdated_of_still (completing : Bool) (s : Activation) :
    chunk.outdated completing s {} = false := by
  simp [outdated]

theorem complete_straight_ok {c : MmCall} {s : Activation} {L : State}
    (hc : c.effect s.L = .ok () L) (calls : List MmCall) (inline : State → OpOutcome) :
    complete raw a chunk (c.straight :: calls) (.call s inline) =
      complete raw a chunk calls (inline L) := by
  unfold complete
  rw [completeFrom, c.effect_straight, hc]
  simp only [MmCall.straight, outdated_of_still, Bool.false_eq_true, if_false]

theorem complete_straight_error {c : MmCall} {s : Activation} {e : String} {L : State}
    (hc : c.effect s.L = .error e L) (calls : List MmCall) (inline : State → OpOutcome) :
    complete raw a chunk (c.straight :: calls) (.call s inline) = .raised e L := by
  unfold complete
  rw [completeFrom, c.effect_straight, hc]

/-- As long as no vector moves, completion does what the opcode would have done. -/
theorem Faithful.complete_same (calls : List MmCall) :
    ∀ {completing : Bool} {o : OpOutcome}, Faithful raw a chunk o →
      ¬ Dangles chunk completing calls o →
        (completeFrom raw a chunk completing calls o).Same a
          (complete raw a chunk (calls.map MmCall.straight) o) := by
  induction calls with
  | nil =>
      intro completing o ho _
      cases ho with
      | done s => exact ⟨rfl, rfl⟩
      | raised e L => exact ⟨rfl, rfl⟩
      | call s inline hsame hnext => trivial
  | cons c calls ih =>
      intro completing o ho hstay
      cases ho with
      | done s => exact ⟨rfl, rfl⟩
      | raised e L => exact ⟨rfl, rfl⟩
      | call s inline hsame hnext =>
          rw [List.map_cons]
          cases hc : c.effect s.L with
          | error e L =>
              rw [complete_straight_error hc, completeFrom, hc]
              exact ⟨rfl, rfl⟩
          | ok u L =>
              have hrest := ih (hnext L) fun h => hstay (.later hc h)
              rw [complete_straight_ok hc, completeFrom, hc]
              cases c with
              | direct run moved =>
                  have hkept : chunk.outdated completing s moved = false :=
                    Bool.eq_false_iff.mpr fun h => hstay (.now hc h)
                  simp only [hkept, Bool.false_eq_true, if_false]
                  rwa [MmCall.isPushed, Bool.or_false] at hrest
              | pushed first later =>
                  simp only [← hsame L]
                  rwa [MmCall.isPushed, Bool.or_true] at hrest

theorem Faithful.complete_wild {completing : Bool} {calls : List MmCall} {o : OpOutcome}
    (h : Dangles chunk completing calls o) :
    Faithful raw a chunk o → completeFrom raw a chunk completing calls o = .wild := by
  induction h with
  | now hback hmoved =>
      intro _
      rw [completeFrom]
      simp only [MmCall.effect, hback, hmoved, if_true]
  | @later completing c calls s inline L hback _ ih =>
      intro ho
      cases ho with
      | call _ _ hsame hnext =>
          have hwild := ih (hnext L)
          rw [completeFrom, hback]
          cases c with
          | direct run moved =>
              rw [MmCall.isPushed, Bool.or_false] at hwild
              simp only [hwild, ite_self]
          | pushed first later =>
              rw [MmCall.isPushed, Bool.or_true] at hwild
              simp only [← hsame L, hwild]

theorem Faithful.invokeMm {s : Activation} (mm : TValue) (args : List TValue)
    (nout : Nat) {inline : Activation → OpOutcome}
    (h : ∀ s' : Activation, s'.fr.savedPc = s.fr.savedPc →
      s'.fr.pendingFinishOp = true → s'.fr.concatPos = s.fr.concatPos →
      s'.fr.concatLast = s.fr.concatLast → s'.fr.concatDest = s.fr.concatDest →
      inline s' = finishInterruptedOp raw a chunk s' ∧
        Faithful raw a chunk (inline s')) :
    Faithful raw a chunk (s.invokeMm a mm args nout inline) := by
  unfold Activation.invokeMm
  have hpushed (L : State) := h (((s.pushMm a mm args nout).setPending
    (s.callBase a)).withState L) rfl rfl rfl rfl rfl
  split
  · exact .call _ _ (fun L => (hpushed L).1) fun L => (hpushed L).2
  · exact .raised _ _

theorem finishInterruptedOp_eq {s : Activation} {pc : Nat} {ins : Instruction}
    (hpending : s.fr.pendingFinishOp = true) (hpc : s.fr.savedPc = pc + 1)
    (hins : chunk.code[pc]? = some ins) (hop : ins.op = .concat) :
    finishInterruptedOp raw a chunk s =
      finishConcat raw a (s.fr.concatLast - s.fr.concatPos) s.notPending
        (s.fr.concatPos + 1) s.fr.concatLast s.fr.concatDest (s.metaRes a) := by
  have hnot : s.notPending.fr.savedPc = pc + 1 := hpc
  unfold finishInterruptedOp
  simp only [hpending, if_true, hnot, hins, hop]
  show finishConcat raw a (s.fr.concatLast + 1 - (s.fr.concatPos + 1)) _ _ _ _ _ = _
  rw [Nat.add_sub_add_right]
  rfl

theorem finishConcat_faithful {ins : Instruction} {pc : Nat}
    (hins : chunk.code[pc]? = some ins) (hop : ins.op = .concat) (n : Nat) :
    ∀ (s : Activation) (pos last dest : Nat) (acc : TValue), s.fr.savedPc = pc + 1 →
      n = last + 1 - pos →
      Faithful raw a chunk (finishConcat raw a n s pos last dest acc) := by
  induction n with
  | zero => exact fun s _ _ dest acc _ _ => .done _
  | succ n ih =>
      intro s pos last dest acc hpc hn
      unfold finishConcat
      simp only
      split
      · split
        · exact .raised _ _
        · exact ih _ _ _ _ _ hpc (by omega)
      · split
        · refine .invokeMm _ _ _ fun s' hpc' hpending hpos hlast hdest => ⟨?_, ?_⟩
          · rw [finishInterruptedOp_eq hpending (hpc'.trans hpc) hins hop, hpos, hlast,
              hdest]
            show _ = finishConcat raw a (last - pos) _ _ _ _ _
            rw [show last - pos = n by omega]
            rfl
          · exact ih _ _ _ _ _ (hpc'.trans hpc) (by omega)
        · exact .raised _ _

theorem finishInterruptedOp_faithful (s : Activation) :
    Faithful raw a chunk (finishInterruptedOp raw a chunk s) := by
  cases hpending : s.fr.pendingFinishOp with
  | false =>
      unfold finishInterruptedOp
      rw [hpending]
      exact .done _
  | true =>
      cases hpc : s.fr.savedPc with
      | zero =>
          have hnot : s.notPending.fr.savedPc = 0 := hpc
          unfold finishInterruptedOp
          simp only [hpending, if_true, hnot]
          exact .raised _ _
      | succ pc =>
          have hnot : s.notPending.fr.savedPc = pc + 1 := hpc
          cases hins : chunk.code[pc]? with
          | none =>
              unfold finishInterruptedOp
              simp only [hpending, if_true, hnot, hins]
              exact .raised _ _
          | some ins =>
              by_cases hop : ins.op = .concat
              · rw [finishInterruptedOp_eq hpending hpc hins hop]
                exact finishConcat_faithful hins hop _ _ _ _ _ _ hpc (by omega)
              · unfold finishInterruptedOp
                simp only [hpending, if_true, hnot, hins]
                split
                all_goals first
                  | exact .done _
                  | contradiction

theorem invokeMm_finish (s : Activation) (mm : TValue) (args : List TValue)
    (nout : Nat) : Faithful raw a chunk
      (s.invokeMm a mm args nout (finishInterruptedOp raw a chunk)) :=
  .invokeMm _ _ _ fun s' _ _ _ _ _ => ⟨rfl, finishInterruptedOp_faithful s'⟩

theorem setConcatPos_eq {s : Activation} {last dest : Nat}
    (hlast : s.fr.concatLast = last) (hdest : s.fr.concatDest = dest) (pos : Nat) :
    s.setConcatPos pos = s.setConcat pos last dest := by
  rw [← hlast, ← hdest]
  rfl

theorem invokeMm_congr {s : Activation} (mm : TValue) (args : List TValue) (nout : Nat)
    {inline inline' : Activation → OpOutcome}
    (h : ∀ s' : Activation, s'.fr.concatLast = s.fr.concatLast →
      s'.fr.concatDest = s.fr.concatDest → inline s' = inline' s') :
    s.invokeMm a mm args nout inline = s.invokeMm a mm args nout inline' := by
  unfold Activation.invokeMm
  split
  · exact congrArg _ (funext fun L => h _ rfl rfl)
  · rfl

theorem concatLoop_eq (ins : Instruction) (n : Nat) :
    ∀ (s : Activation) (pos : Nat) (acc : TValue), s.fr.concatLast = ins.c →
      s.fr.concatDest = ins.a →
      concatLoop raw a n s pos ins acc = finishConcat raw a n s pos ins.c ins.a acc := by
  induction n with
  | zero => exact fun _ _ _ _ _ => rfl
  | succ n ih =>
      intro s pos acc hlast hdest
      unfold concatLoop finishConcat
      simp only
      split
      · split
        · rfl
        · exact ih _ _ _ hlast hdest
      · split
        · have hset := setConcatPos_eq
            (s := s.withState (s.L.getMetamethod2 acc (s.reg a pos) .concat).2) hlast hdest pos
          rw [hset]
          exact invokeMm_congr _ _ _ fun s' hlast' hdest' =>
            ih _ _ _ (hlast'.trans rfl) (hdest'.trans rfl)
        · rfl

theorem indexYieldable_cases (op : OpCode) (found : Activation → TValue → OpOutcome)
    (called : Activation → OpOutcome) (fuel : Nat) :
    ∀ (s : Activation) (t key : TValue),
      let o := indexYieldable raw a op found called fuel s t key
      (∃ s' v, o = found s' v) ∨ (∃ e L, o = .raised e L) ∨
        ∃ s' mm args, o = Activation.invokeMm a s' mm args 1 called ∧ s'.fr = s.fr := by
  induction fuel with
  | zero => exact fun s _ _ => Or.inr (Or.inl ⟨_, s.L, rfl⟩)
  | succ fuel ih =>
      intro s t key
      unfold indexYieldable
      simp only
      split
      · exact Or.inl ⟨_, _, rfl⟩
      · split
        · split
          · exact Or.inl ⟨_, _, rfl⟩
          · exact Or.inr (Or.inl ⟨_, _, rfl⟩)
        · split
          · exact Or.inr (Or.inr ⟨_, _, _, rfl, rfl⟩)
          · exact ih _ _ _

theorem opGet_faithful (ins : Instruction) (s : Activation) (t key : TValue) :
    Faithful raw a chunk (opGet raw a chunk ins s t key) := by
  obtain ⟨s', v, h⟩ | ⟨e, L, h⟩ | ⟨s', mm, args, h, -⟩ :=
    @indexYieldable_cases raw a ins.op (fun s v => .done (s.setReg a ins.a v))
      (finishInterruptedOp raw a chunk) maxTagLoop s t key
  · rw [opGet, h]
    exact .done _
  · rw [opGet, h]
    exact .raised _ _
  · rw [opGet, h]
    exact invokeMm_finish _ _ _ _

theorem storeRaw_faithful (op : OpCode) (t key value : TValue) (s : Activation) :
    Faithful raw a chunk (storeRaw raw op t key value s) := by
  unfold storeRaw
  split
  · split
    · exact .raised _ _
    · exact .done _
  · exact .raised _ _

theorem newindexYieldable_faithful (op : OpCode) (fuel : Nat) :
    ∀ (s : Activation) (t key value : TValue), Faithful raw a chunk
      (newindexYieldable raw a op (finishInterruptedOp raw a chunk) fuel s t key
        value) := by
  induction fuel with
  | zero => exact fun _ _ _ _ => .raised _ _
  | succ fuel ih =>
      intro s t key value
      unfold newindexYieldable
      simp only
      split
      · exact storeRaw_faithful op t key value _
      · split
        · exact storeRaw_faithful op t key value _
        · split
          · exact invokeMm_finish _ _ _ _
          · exact ih _ _ _ _

theorem opMm_faithful (op : OpCode) (s : Activation) (v w : TValue)
    (args : List TValue) : Faithful raw a chunk (opMm raw a chunk op s v w args) := by
  unfold opMm
  simp only
  split
  · exact invokeMm_finish _ _ _ _
  · exact .raised _ _

theorem opUnary_faithful (ins : Instruction) (out : Option TValue) (s : Activation) :
    Faithful raw a chunk (opUnary raw a chunk ins out s) := by
  unfold opUnary
  simp only
  split
  · exact .done _
  · split
    · exact invokeMm_finish _ _ _ _
    · exact .raised _ _

theorem opArith_faithful (ins : Instruction) (s : Activation) :
    Faithful raw a chunk (opArith raw a chunk ins s) := by
  unfold opArith
  simp only
  split
  · exact .done _
  · exact .raised _ _
  · exact opMm_faithful _ _ _ _ _

theorem opConcat_faithful {ins : Instruction} {pc : Nat}
    (hins : chunk.code[pc]? = some ins) (hop : ins.op = .concat) (s : Activation)
    (hpc : s.fr.savedPc = pc + 1) : Faithful raw a chunk (opConcat raw a ins s) := by
  unfold opConcat
  simp only
  split
  · split
    · exact .raised _ _
    · exact .done _
  · rw [concatLoop_eq _ _ _ _ _ rfl rfl]
    exact finishConcat_faithful hins hop _ _ _ _ _ _ hpc (by omega)

theorem opEq_faithful (ins : Instruction) (s : Activation) :
    Faithful raw a chunk (opEq raw a chunk ins s) := by
  unfold opEq
  simp only
  split
  · exact .done _
  · split
    all_goals
      first
        | exact .done _
        | split
          · exact .done _
          · split
            · exact invokeMm_finish _ _ _ _
            · exact .done _

theorem opLt_faithful (ins : Instruction) (s : Activation) :
    Faithful raw a chunk (opLt raw a chunk ins s) := by
  unfold opLt
  simp only
  split
  · exact .done _
  · split
    · exact .done _
    · exact opMm_faithful _ _ _ _ _

theorem opLe_faithful (ins : Instruction) (s : Activation) :
    Faithful raw a chunk (opLe raw a chunk ins s) := by
  unfold opLe
  simp only
  split
  · exact .done _
  · split
    · exact .done _
    · split
      · exact invokeMm_finish _ _ _ _
      · split
        · exact invokeMm_finish _ _ _ _
        · exact .raised _ _

/-- `meta_len` calls the metamethod. -/
def LenNested (a : Addr) (ins : Instruction) (s : Activation) : Prop :=
  ins.op = .len ∧ (s.reg a ins.b).isString = false ∧
    (s.reg a ins.b).isTable = false ∧
    (s.L.getMetamethod (s.reg a ins.b) .len).1.isFunction = true

theorem opLen_faithful {ins : Instruction} {s : Activation} (hop : ins.op = .len)
    (h : ¬ LenNested a ins s) : Faithful raw a chunk (opLen raw a chunk ins s) := by
  unfold opLen
  simp only
  split
  · exact .done _
  · rename_i hstring
    split
    · split
      · exact invokeMm_finish _ _ _ _
      · exact .done _
    · rename_i htable
      split
      · rename_i hfun
        exact absurd ⟨hop, by simpa using hstring, by simpa using htable, hfun⟩ h
      · exact .raised _ _

theorem opLen_nested {ins : Instruction} {s : Activation} (h : LenNested a ins s) :
    ∃ s' inline, opLen raw a chunk ins s = .nested s' inline ∧
      ∀ L, ∃ s'', inline L = .done s'' := by
  obtain ⟨-, hstring, htable, hfun⟩ := h
  unfold opLen
  simp only [hstring, htable, hfun, Bool.false_eq_true, if_true, if_false]
  exact ⟨_, _, rfl, fun L => ⟨_, rfl⟩⟩

theorem execute_faithful {ins : Instruction} {pc : Nat} {s : Activation}
    (hins : chunk.code[pc]? = some ins) (hpc : s.fr.savedPc = pc + 1)
    (hself : ins.op ≠ .self) (hlen : ¬ LenNested a ins s) :
    Faithful raw a chunk (execute raw a chunk ins s) := by
  unfold execute
  simp only
  split
  · exact opGet_faithful _ _ _ _
  · exact opGet_faithful _ _ _ _
  · exact opGet_faithful _ _ _ _
  · exact opGet_faithful _ _ _ _
  · exact newindexYieldable_faithful _ _ _ _ _ _
  · exact newindexYieldable_faithful _ _ _ _ _ _
  · exact newindexYieldable_faithful _ _ _ _ _ _
  · exact newindexYieldable_faithful _ _ _ _ _ _
  · contradiction
  all_goals first
    | exact opArith_faithful _ _
    | exact opUnary_faithful _ _ _
    | exact opLen_faithful (by assumption) hlen
    | exact opConcat_faithful hins (by assumption) _ hpc
    | exact opEq_faithful _ _
    | exact opLt_faithful _ _
    | exact opLe_faithful _ _

theorem register_setSlot_self {L : State} {i : Nat} {v : TValue}
    (h : L.register a i = v) :
    (L.updateThread a (·.setSlot i v)).register a = L.register a := by
  funext j
  rw [State.register, State.register, State.thread?_updateThread]
  cases hth : L.thread? a with
  | none => rfl
  | some th =>
      rw [State.register, hth] at h
      show (th.setSlot i v).slot j = th.slot j
      by_cases hj : j = i
      · subst hj
        have hslot : th.slot j = v := h
        rw [Thread.slot, List.getD_eq_getElem?_getD] at hslot
        simp only [Thread.slot, Thread.setSlot, Thread.overwrite,
          List.getD_eq_getElem?_getD, List.getElem?_mapIdx]
        cases hget : th.stack[j]? with
        | none => rfl
        | some w =>
            rw [hget] at hslot
            exact hslot.symm
      · exact th.slot_setSlot v hj

theorem register_setSlot_ne (L : State) {i j : Nat} (v : TValue) (h : j ≠ i) :
    (L.updateThread a (·.setSlot i v)).register a j = L.register a j := by
  rw [State.register, State.register, State.thread?_updateThread]
  cases L.thread? a with
  | none => rfl
  | some th => exact th.slot_setSlot v h

/-- `R[A+1]` still holds the object when the metamethod of `SELF` is back. -/
def SelfKept (raw : Raw) (a : Addr) (chunk : Chunk) (s : Activation)
    (calls : List MmCall) : Prop :=
  ∀ ins s' inline c rest L, chunk.code[s.fr.savedPc]? = some ins → ins.op = .self →
    step raw a chunk s = .call s' inline → calls = c :: rest →
    c.effect s'.L = .ok () L →
    L.register a (s.fr.base + (ins.a + 1)) = s.reg a ins.b

theorem finishInterruptedOp_self {s : Activation} {pc : Nat} {ins : Instruction}
    (hpending : s.fr.pendingFinishOp = true) (hpc : s.fr.savedPc = pc + 1)
    (hins : chunk.code[pc]? = some ins) (hop : ins.op = .self) :
    finishInterruptedOp raw a chunk s =
      .done (s.notPending.setReg a ins.a (s.metaRes a)) := by
  have hnot : s.notPending.fr.savedPc = pc + 1 := hpc
  unfold finishInterruptedOp
  simp only [hpending, if_true, hnot, hins, hop]
  rfl

theorem opSelf_cases (ins : Instruction) (s : Activation) (t key : TValue) :
    (∃ s', opSelf raw a chunk ins s t key = .done s') ∨
    (∃ e L, opSelf raw a chunk ins s t key = .raised e L) ∨
    ∃ st : Activation, opSelf raw a chunk ins s t key =
        .call st (fun L => finishSelf raw a chunk ins t (st.withState L)) ∧
      st.fr.base = s.fr.base ∧ st.fr.savedPc = s.fr.savedPc ∧
      st.fr.pendingFinishOp = true := by
  unfold opSelf
  obtain ⟨s', v, h⟩ | ⟨e, L, h⟩ | ⟨s', mm, args, h, hfr⟩ :=
    @indexYieldable_cases raw a .self
      (fun s m => .done ((s.setReg a (ins.a + 1) t).setReg a ins.a m))
      (finishSelf raw a chunk ins t) maxTagLoop (s.setReg a (ins.a + 1) t) t key
  · exact Or.inl ⟨_, h⟩
  · exact Or.inr (Or.inl ⟨e, L, h⟩)
  · rw [h]
    unfold Activation.invokeMm
    split
    · exact Or.inr (Or.inr ⟨_, rfl, (congrArg OpFrame.base hfr :),
        (congrArg OpFrame.savedPc hfr :), rfl⟩)
    · exact Or.inr (Or.inl ⟨_, _, rfl⟩)

section Self

variable {ins : Instruction} {pc : Nat} {s : Activation}

theorem finishSelf_self (hpending : s.fr.pendingFinishOp = true)
    (hpc : s.fr.savedPc = pc + 1) (hins : chunk.code[pc]? = some ins)
    (hop : ins.op = .self) (t : TValue) :
    finishSelf raw a chunk ins t s =
      .done ((s.notPending.setReg a ins.a (s.metaRes a)).setReg a (ins.a + 1) t) := by
  rw [finishSelf, finishInterruptedOp_self hpending hpc hins hop]

theorem opSelf_stays (hins : chunk.code[pc]? = some ins) (hop : ins.op = .self)
    (hpc : s.fr.savedPc = pc + 1) (t key : TValue) (calls : List MmCall) :
    ¬ Dangles chunk false calls (opSelf raw a chunk ins s t key) := by
  obtain ⟨s', h⟩ | ⟨e, L, h⟩ | ⟨st, h, -, hpc', hpending⟩ :=
    @opSelf_cases raw a chunk ins s t key
  · rw [h]
    exact fun hd => nomatch hd
  · rw [h]
    exact fun hd => nomatch hd
  · rw [h]
    intro hd
    have hst := hpc'.trans hpc
    cases hd with
    | now _ hmoved =>
        rw [outdated, folds, hst, Nat.add_sub_cancel, hins] at hmoved
        simp [hop] at hmoved
    | @later _ _ _ _ _ L _ hrest =>
        have hdone := @finishSelf_self raw a chunk ins pc (st.withState L) hpending hst hins
          hop t
        simp only [hdone] at hrest
        cases hrest

theorem opSelf_same (hins : chunk.code[pc]? = some ins) (hop : ins.op = .self)
    (hpc : s.fr.savedPc = pc + 1) (t key : TValue) (calls : List MmCall)
    (hkept : ∀ s' inline c rest L, opSelf raw a chunk ins s t key = .call s' inline →
      calls = c :: rest → c.effect s'.L = .ok () L →
      L.register a (s.fr.base + (ins.a + 1)) = t) :
    (complete raw a chunk calls (opSelf raw a chunk ins s t key)).Same a
      (complete raw a chunk (calls.map MmCall.straight)
        (opSelf raw a chunk ins s t key)) := by
  have hstays := @opSelf_stays raw a chunk ins pc s hins hop hpc t key calls
  obtain ⟨s', h⟩ | ⟨e, L, h⟩ | ⟨st, h, hbase, hpc', hpending⟩ :=
    @opSelf_cases raw a chunk ins s t key
  · rw [h, complete_done, complete_done]
    exact ⟨rfl, rfl⟩
  · rw [h, complete_raised, complete_raised]
    exact ⟨rfl, rfl⟩
  · rw [h] at hkept hstays ⊢
    have hst := hpc'.trans hpc
    cases calls with
    | nil => trivial
    | cons c rest =>
        have hself (L : State) := @finishSelf_self raw a chunk ins pc (st.withState L)
          hpending hst hins hop t
        have hfinish (L : State) := @finishInterruptedOp_self raw a chunk (st.withState L) pc
          ins hpending hst hins hop
        rw [List.map_cons]
        cases hc : c.effect st.L with
        | error e L =>
            rw [complete_straight_error hc, complete, completeFrom, hc]
            exact ⟨rfl, rfl⟩
        | ok u L =>
            have hobject := hkept _ _ c rest L rfl rfl hc
            rw [complete_straight_ok hc, complete, completeFrom, hc]
            simp only [hself, complete_done]
            cases c with
            | direct run moved =>
                have hkept : chunk.outdated false st moved = false :=
                  Bool.eq_false_iff.mpr fun h => hstays (.now hc h)
                simp only [hkept, Bool.false_eq_true, if_false, completeFrom_done]
                exact ⟨rfl, rfl⟩
            | pushed first later =>
                simp only [hfinish, completeFrom_done]
                refine ⟨rfl, (register_setSlot_self ?_).symm⟩
                have hne : st.fr.base + (ins.a + 1) ≠ st.fr.base + ins.a := by omega
                refine (register_setSlot_ne L _ hne).trans ?_
                rw [hbase]
                exact hobject

end Self

/-- `LEN` calls a metamethod that yields on what is neither a string nor a table. -/
def LenYields (a : Addr) (chunk : Chunk) (s : Activation) (calls : List MmCall) : Prop :=
  ∃ ins c rest, chunk.code[s.fr.savedPc]? = some ins ∧ LenNested a ins s ∧
    calls = c :: rest ∧ c.yields = true

theorem complete_nested_same {s : Activation} {inline : State → OpOutcome}
    (hinline : ∀ L, ∃ s', inline L = .done s') (c : MmCall) (rest : List MmCall) :
    (complete raw a chunk (c :: rest) (.nested s inline)).Same a
        (complete raw a chunk ((c :: rest).map MmCall.straight) (.nested s inline)) ↔
      c.yields = false := by
  have hstraight : c.straight.yields = false := rfl
  rw [List.map_cons]
  unfold complete completeFrom
  rw [hstraight, c.effect_straight]
  simp only [Bool.false_eq_true, if_false]
  cases hyields : c.yields with
  | false =>
      refine iff_of_true ?_ rfl
      cases c.effect s.L with
      | error e L => exact ⟨rfl, rfl⟩
      | ok u L =>
          obtain ⟨s', hs'⟩ := hinline L
          simp only [Bool.false_eq_true, if_false, hs', completeFrom_done]
          exact ⟨rfl, rfl⟩
  | true =>
      refine iff_of_false ?_ (by simp)
      cases c.effect s.L with
      | error e L => exact id
      | ok u L =>
          obtain ⟨s', hs'⟩ := hinline L
          simp only [if_true, hs', completeFrom_done]
          exact id

def fetched (s : Activation) : Activation :=
  { s with fr := { s.fr with savedPc := s.fr.savedPc + 1 } }

theorem step_lenNested {ins : Instruction} {s : Activation}
    (hins : chunk.code[s.fr.savedPc]? = some ins) (hlen : LenNested a ins s) :
    ∃ s' inline, step raw a chunk s = .nested s' inline ∧
      ∀ L, ∃ s', inline L = .done s' := by
  obtain ⟨s', inline, h, hinline⟩ := @opLen_nested raw a chunk ins (fetched s) hlen
  refine ⟨s', inline, ?_, hinline⟩
  unfold step execute
  rw [hins]
  simp only [hlen.1]
  exact h

/-- Whatever the instruction, it is `LEN` in an interpreter of its own, `SELF` or faithful. -/
theorem step_cases (raw : Raw) (a : Addr) (chunk : Chunk) (s : Activation) :
    (∃ ins s' inline, chunk.code[s.fr.savedPc]? = some ins ∧ LenNested a ins s ∧
      step raw a chunk s = .nested s' inline ∧ ∀ L, ∃ s', inline L = .done s') ∨
    (∃ ins, chunk.code[s.fr.savedPc]? = some ins ∧ ins.op = .self ∧
      step raw a chunk s =
        opSelf raw a chunk ins (fetched s) (s.reg a ins.b) (s.reg a ins.c)) ∨
    Faithful raw a chunk (step raw a chunk s) := by
  cases hins : chunk.code[s.fr.savedPc]? with
  | none =>
      unfold step
      rw [hins]
      exact Or.inr (Or.inr (.done s))
  | some ins =>
      by_cases hlen : LenNested a ins s
      · obtain ⟨s', inline, h, hinline⟩ := @step_lenNested raw a chunk ins s hins hlen
        exact Or.inl ⟨ins, s', inline, rfl, hlen, h, hinline⟩
      · have hstep : step raw a chunk s = execute raw a chunk ins (fetched s) := by
          unfold step
          rw [hins]
          rfl
        rw [hstep]
        by_cases hop : ins.op = .self
        · refine Or.inr (Or.inl ⟨ins, rfl, hop, ?_⟩)
          unfold execute
          rw [hop]
          rfl
        · exact Or.inr (Or.inr (execute_faithful (s := fetched s) hins rfl hop hlen))

theorem complete_same_of_stays (raw : Raw) (a : Addr) (chunk : Chunk) (s : Activation)
    (calls : List MmCall) (hself : SelfKept raw a chunk s calls)
    (hyields : ¬ LenYields a chunk s calls)
    (hstays : ¬ Dangles chunk false calls (step raw a chunk s)) :
    (complete raw a chunk calls (step raw a chunk s)).Same a
      (complete raw a chunk (calls.map MmCall.straight) (step raw a chunk s)) := by
  obtain ⟨ins, s', inline, hins, hlen, h, hinline⟩ | ⟨ins, hins, hop, h⟩ | hfaithful :=
    step_cases raw a chunk s
  · rw [h]
    cases calls with
    | nil => trivial
    | cons c rest =>
        rw [complete_nested_same hinline]
        cases hc : c.yields with
        | false => rfl
        | true => exact absurd ⟨ins, c, rest, hins, hlen, rfl, hc⟩ hyields
  · rw [h]
    refine opSelf_same hins hop rfl _ _ calls fun s' inline c rest L hcall hc he => ?_
    exact hself ins s' inline c rest L hins hop (h.trans hcall) hc he
  · exact hfaithful.complete_same calls hstays

theorem complete_lost {s : Activation} {calls : List MmCall}
    (h : LenYields a chunk s calls) :
    complete raw a chunk calls (step raw a chunk s) = .lost := by
  obtain ⟨ins, c, rest, hins, hlen, rfl, hyields⟩ := h
  obtain ⟨s', inline, hstep, -⟩ := @step_lenNested raw a chunk ins s hins hlen
  rw [hstep, complete, completeFrom, if_pos hyields]

theorem complete_wild {s : Activation} {calls : List MmCall}
    (h : Dangles chunk false calls (step raw a chunk s)) :
    complete raw a chunk calls (step raw a chunk s) = .wild := by
  obtain ⟨ins, s', inline, -, -, hstep, -⟩ | ⟨ins, hins, hop, hstep⟩ | hfaithful :=
    step_cases raw a chunk s
  · rw [hstep] at h
    cases h
  · rw [hstep] at h
    exact absurd h (opSelf_stays hins hop rfl _ _ calls)
  · exact Faithful.complete_wild h hfaithful

/-- A userdata in the first register, with one metamethod, function `5`. -/
def userdataState (e : TmEvent) : State where
  main := some 1
  current := some 1
  strings := [6]
  tmNames := List.replicate e.ctorIdx none ++ [some 6]
  heap := [(3, .userdata { metatable := some 4 }),
    (4, .table { hash := [⟨.string 6, .function 5, true⟩] }),
    (5, .closure {}),
    (6, .string ⟨[95, 95], 0⟩),
    (1, .thread
      { stack := .userdata 3 :: List.replicate 31 .nil
        frames := [{ cl := some 5 }]
        top := 2
        status := .running })]

def noRaw : Raw where
  arith _ _ _ _ := none
  unm _ _ := none
  bnot _ _ := none
  length _ _ := .integer 0
  numberLt _ _ := false
  numberLe _ _ := false
  stringLt _ _ _ := false
  stringLe _ _ _ := false
  concat _ L := .error "concat" L
  set _ _ _ L := .ok () L
  message _ _ _ _ := "attempt to index a userdata value"

def yieldingCall : MmCall :=
  .pushed (fun L => .ok () L)
    [fun L => .ok () (L.updateThread 1 fun th => th.setSlot 2 (.integer 5))]

def oneInstruction (op : OpCode) : Chunk where
  code := [{ op }]

def begun (op : OpCode) : Activation where
  L := userdataState op.event
  fr := {}

theorem selfKept_of_op {raw : Raw} {a : Addr} {op : OpCode} {s : Activation}
    {calls : List MmCall} (hpc : s.fr.savedPc = 0) (hop : op ≠ .self) :
    SelfKept raw a (oneInstruction op) s calls := by
  intro ins s' inline c rest L hins hself
  rw [hpc] at hins
  cases hins
  exact absurd hself hop

end Chunk

end Luatier
