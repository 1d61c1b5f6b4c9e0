import Luatier.Runtime.NumberOrder
import Luatier.Vm.Interrupted

/-!
# Comparison in opcodes and in the library

`EQ`, `LT` and `LE` decide by a jump what `meta_eq`, `meta_lt` and `meta_le`
return to a native such as `table.sort`.
-/

namespace Luatier

/-- The opcodes compare numbers by `number_lt` and `number_le`. -/
def Raw.exact (raw : Raw) : Raw :=
  { raw with numberLt := Luatier.numberLt, numberLe := Luatier.numberLe }

namespace State

variable (raw : Raw) (a : Addr) (run : State → Result Unit)

/-- `call_mm` with its result, where `run` is what the call does. -/
def callMmOut (mm : TValue) (args : List TValue) (L : State) : Result TValue :=
  let savedTop := ((L.thread? a).map (·.top)).getD 0
  let callBase := ((L.thread? a).map L.liveRegsTop).getD 0
  (run (L.updateThread a (·.pushMm callBase mm args 1))).bind fun _ L =>
    .ok (L.register a callBase) (L.updateThread a (·.setTop savedTop))

def callTruthy (mm : TValue) (args : List TValue) (L : State) : Result Bool :=
  (L.callMmOut a run mm args).bind fun out L => .ok out.isTruthy L

def metaEq (v w : TValue) (L : State) : Result Bool :=
  if v.tag != w.tag && !(v.isNumber && w.isNumber) then .ok false L
  else
    match v with
    | .table _ | .function _ | .userdata _ =>
        if v.payload = w.payload then .ok true L
        else
          let (mm, L) := L.getMetamethod2 v w .eq
          if mm.isFunction then L.callTruthy a run mm [v, w] else .ok false L
    | _ => .ok (valuesEqual v w) L

def metaLt (v w : TValue) (L : State) : Result Bool :=
  if v.isNumber && w.isNumber then .ok (v.toNumber.lt w.toNumber) L
  else if v.isString && w.isString then .ok (raw.stringLt L v w) L
  else
    let (mm, L) := L.getMetamethod2 v w .lt
    if mm.isFunction then L.callTruthy a run mm [v, w]
    else .error (raw.message .lt v w L) L

def metaLe (v w : TValue) (L : State) : Result Bool :=
  if v.isNumber && w.isNumber then .ok (v.toNumber.le w.toNumber) L
  else if v.isString && w.isString then .ok (raw.stringLe L v w) L
  else
    let (mm, L) := L.getMetamethod2 v w .le
    if mm.isFunction then L.callTruthy a run mm [v, w]
    else (L.metaLt raw a run w v).bind fun lt L => .ok (!lt) L

end State

/-- The answer to a comparison, whoever gives it. -/
inductive Verdict where
  | answer (b : Bool)
  | error
  | unfinished
  deriving DecidableEq, Repr

def Result.verdict : Result Bool → Verdict
  | .ok b _ => .answer b
  | .error _ _ => .error

/-- The jump at `pc` is taken when the answer is the one that `A` asks for. -/
def Ending.verdict (ins : Instruction) (pc : Nat) : Ending → Verdict
  | .done s => .answer ((s.fr.savedPc == pc) == (ins.a != 0))
  | .raised _ _ => .error
  | _ => .unfinished

namespace Chunk

variable (raw : Raw) (a : Addr) (chunk : Chunk)

def opVerdict (c : MmCall) (s : Activation) (ins : Instruction) : Verdict :=
  (complete raw.exact a chunk [c] (step raw.exact a chunk s)).verdict ins
    (s.fr.savedPc + 1)

def metaVerdict (c : MmCall) (s : Activation) (ins : Instruction) : Verdict :=
  let v := s.reg a ins.b
  let w := s.reg a ins.c
  match ins.op with
  | .lt => (s.L.metaLt raw a c.effect v w).verdict
  | .le => (s.L.metaLe raw a c.effect v w).verdict
  | _ => (s.L.metaEq a c.effect v w).verdict

variable {raw a chunk}

theorem verdict_skipIf {ins : Instruction} {pc : Nat} {s : Activation}
    (hpc : s.fr.savedPc = pc) (b : Bool) :
    (Ending.done (s.skipIf (b != (ins.a != 0)))).verdict ins pc = .answer b := by
  subst hpc
  have hskip : (s.skipIf (b != (ins.a != 0))).fr.savedPc =
      if b != (ins.a != 0) then s.fr.savedPc + 1 else s.fr.savedPc := rfl
  rw [Ending.verdict, hskip]
  cases b <;> cases ins.a != 0 <;> simp

theorem finishInterruptedOp_compare {s : Activation} {pc : Nat} {ins : Instruction}
    (hpending : s.fr.pendingFinishOp = true) (hpc : s.fr.savedPc = pc + 1)
    (hins : chunk.code[pc]? = some ins)
    (hop : ins.op = .eq ∨ ins.op = .lt ∨ ins.op = .le) :
    finishInterruptedOp raw a chunk s =
      .done ((s.notPending.setLeInvert false).skipIf
        (((s.metaRes a).isTruthy != s.fr.leInvert) != (ins.a != 0))) := by
  have hnot : s.notPending.fr.savedPc = pc + 1 := hpc
  unfold finishInterruptedOp
  simp only [hpending, if_true, hnot, hins]
  rcases hop with hop | hop | hop <;> rw [hop] <;> rfl

theorem invokeMm_verdict {s : Activation} {pc : Nat} {ins : Instruction}
    (hpc : s.fr.savedPc = pc + 1) (hins : chunk.code[pc]? = some ins)
    (hop : ins.op = .eq ∨ ins.op = .lt ∨ ins.op = .le) (c : MmCall) {mm : TValue}
    (hmm : mm.isFunction = true) (args : List TValue) :
    (complete raw a chunk [c]
        (s.invokeMm a mm args 1 (finishInterruptedOp raw a chunk))).verdict ins (pc + 1) =
      ((s.L.callTruthy a c.effect mm args).bind fun b L =>
        .ok (b != s.fr.leInvert) L).verdict := by
  unfold Activation.invokeMm
  rw [if_pos hmm]
  unfold State.callTruthy State.callMmOut
  show _ = (((((c.effect (s.pushMm a mm args 1).L).bind _).bind _).bind _)).verdict
  generalize hst : (s.pushMm a mm args 1).setPending (s.callBase a) = st
  have hL : (s.pushMm a mm args 1).L = st.L := by
    rw [← hst]
    rfl
  have hfinish (L : State) : finishInterruptedOp raw a chunk (st.withState L) =
      .done (((st.withState L).notPending.setLeInvert false).skipIf
        (((L.register a (s.callBase a)).isTruthy != s.fr.leInvert) !=
          (ins.a != 0))) := by
    subst hst
    exact finishInterruptedOp_compare rfl hpc hins hop
  have hdone (L : State) (b : Bool) : (Ending.done
      (((st.withState L).notPending.setLeInvert false).skipIf
        (b != (ins.a != 0)))).verdict ins (pc + 1) = .answer b := by
    subst hst
    exact verdict_skipIf hpc b
  have hfolds : chunk.folds st = false := by
    subst hst
    have hpc' : ((s.pushMm a mm args 1).setPending (s.callBase a)).fr.savedPc = pc + 1 := hpc
    rw [folds, hpc', Nat.add_sub_cancel, hins]
    rcases hop with hop | hop | hop <;> simp [hop]
  rw [hL, complete, completeFrom]
  cases c.effect st.L with
  | error e L => rfl
  | ok u L =>
      cases c with
      | direct run moved =>
          simp only [outdated, hfolds, Bool.false_and, Bool.false_eq_true, if_false, hfinish,
            completeFrom_done]
          exact hdone L _
      | pushed first later =>
          simp only [hfinish, completeFrom_done]
          exact hdone L _

/-! ## The inverted answer

Only a `LE` without `__le` inverts its answer, and it takes that back itself.
-/

/-- Wherever the code of the opcode gets to, the next answer is not inverted. -/
def Settles : OpOutcome → Prop
  | .done s => s.fr.leInvert = false
  | .raised _ _ => True
  | .call _ inline => ∀ L, Settles (inline L)
  | .nested _ inline => ∀ L, Settles (inline L)

theorem settles_invokeMm {s : Activation} (mm : TValue) (args : List TValue) (nout : Nat)
    {inline : Activation → OpOutcome}
    (h : ∀ s' : Activation, s'.fr.savedPc = s.fr.savedPc →
      s'.fr.leInvert = s.fr.leInvert → s'.fr.pendingFinishOp = true →
      Settles (inline s')) :
    Settles (s.invokeMm a mm args nout inline) := by
  unfold Activation.invokeMm
  split
  · exact fun L => h _ rfl rfl rfl
  · exact trivial

theorem finishConcat_settles (n : Nat) : ∀ (s : Activation) (pos last dest : Nat)
    (acc : TValue), s.fr.leInvert = false →
      Settles (finishConcat raw a n s pos last dest acc) := by
  induction n with
  | zero => exact fun s _ _ _ _ hs => hs
  | succ n ih =>
      intro s pos last dest acc hs
      unfold finishConcat
      simp only
      split
      · split
        · exact trivial
        · exact ih _ _ _ _ _ hs
      · split
        · exact settles_invokeMm _ _ _ fun s' _ h _ => ih _ _ _ _ _ (h.trans hs)
        · exact trivial

theorem concatLoop_settles (ins : Instruction) (n : Nat) :
    ∀ (s : Activation) (pos : Nat) (acc : TValue), s.fr.leInvert = false →
      Settles (concatLoop raw a n s pos ins acc) := by
  induction n with
  | zero => exact fun s _ _ hs => hs
  | succ n ih =>
      intro s pos acc hs
      unfold concatLoop
      simp only
      split
      · split
        · exact trivial
        · exact ih _ _ _ hs
      · split
        · exact settles_invokeMm _ _ _ fun s' _ h _ => ih _ _ _ (h.trans hs)
        · exact trivial

theorem finishInterruptedOp_settles {s : Activation} (hs : s.fr.leInvert = false) :
    Settles (finishInterruptedOp raw a chunk s) := by
  unfold finishInterruptedOp
  simp only
  split
  · split
    · exact trivial
    · split
      · exact trivial
      · split
        all_goals first
          | exact hs
          | exact rfl
          | exact trivial
          | exact finishConcat_settles _ _ _ _ _ _ hs
  · exact hs

theorem invokeMm_finish_settles {s : Activation} {mm : TValue} {args : List TValue}
    {nout : Nat} (hs : s.fr.leInvert = false) :
    Settles (s.invokeMm a mm args nout (finishInterruptedOp raw a chunk)) :=
  settles_invokeMm _ _ _ fun _ _ h _ => finishInterruptedOp_settles (h.trans hs)

theorem indexYieldable_settles (op : OpCode) {found : Activation → TValue → OpOutcome}
    {called : Activation → OpOutcome}
    (hfound : ∀ (s : Activation) v, s.fr.leInvert = false → Settles (found s v))
    (hcalled : ∀ s : Activation, s.fr.leInvert = false → Settles (called s))
    (fuel : Nat) : ∀ (s : Activation) (t key : TValue), s.fr.leInvert = false →
      Settles (indexYieldable raw a op found called fuel s t key) := by
  induction fuel with
  | zero => exact fun _ _ _ _ => trivial
  | succ fuel ih =>
      intro s t key hs
      unfold indexYieldable
      simp only
      split
      · exact hfound _ _ hs
      · split
        · split
          · exact hfound _ _ hs
          · exact trivial
        · split
          · exact settles_invokeMm _ _ _ fun s' _ h _ => hcalled s' (h.trans hs)
          · exact ih _ _ _ hs

theorem storeRaw_settles (op : OpCode) (t key value : TValue) {s : Activation}
    (hs : s.fr.leInvert = false) : Settles (storeRaw raw op t key value s) := by
  unfold storeRaw
  split
  · split
    · exact trivial
    · exact hs
  · exact trivial

theorem newindexYieldable_settles (op : OpCode) (fuel : Nat) :
    ∀ (s : Activation) (t key value : TValue), s.fr.leInvert = false →
      Settles (newindexYieldable raw a op (finishInterruptedOp raw a chunk) fuel s t key
        value) := by
  induction fuel with
  | zero => exact fun _ _ _ _ _ => trivial
  | succ fuel ih =>
      intro s t key value hs
      unfold newindexYieldable
      simp only
      split
      · exact storeRaw_settles op t key value hs
      · split
        · exact storeRaw_settles op t key value hs
        · split
          · exact invokeMm_finish_settles hs
          · exact ih _ _ _ _ hs

theorem finishSelf_settles (ins : Instruction) (t : TValue) {s : Activation}
    (hs : s.fr.leInvert = false) : Settles (finishSelf raw a chunk ins t s) := by
  have h := @finishInterruptedOp_settles raw a chunk s hs
  unfold finishSelf
  split
  · rename_i s' heq
    rw [heq] at h
    exact h
  · exact h

theorem opMm_settles (op : OpCode) {s : Activation} (hs : s.fr.leInvert = false)
    (v w : TValue) (args : List TValue) : Settles (opMm raw a chunk op s v w args) := by
  unfold opMm
  simp only
  split
  · exact invokeMm_finish_settles hs
  · exact trivial

theorem opLe_settles {ins : Instruction} {pc : Nat} {s : Activation}
    (hpc : s.fr.savedPc = pc + 1) (hins : chunk.code[pc]? = some ins)
    (hop : ins.op = .le) (hs : s.fr.leInvert = false) :
    Settles (opLe raw a chunk ins s) := by
  unfold opLe
  simp only
  split
  · exact hs
  · split
    · exact hs
    · split
      · exact invokeMm_finish_settles rfl
      · split
        · refine settles_invokeMm _ _ _ fun s' hpc' _ hpending => ?_
          rw [finishInterruptedOp_compare hpending (hpc'.trans hpc) hins
            (.inr (.inr hop))]
          exact rfl
        · exact trivial

theorem execute_settles {ins : Instruction} {pc : Nat} {s : Activation}
    (hpc : s.fr.savedPc = pc + 1) (hins : chunk.code[pc]? = some ins)
    (hs : s.fr.leInvert = false) : Settles (execute raw a chunk ins s) := by
  have hget (t key : TValue) : Settles (opGet raw a chunk ins s t key) := by
    unfold opGet
    refine indexYieldable_settles _ ?_ ?_ _ _ _ _ hs
    · exact fun _ _ h => h
    · exact fun _ h => finishInterruptedOp_settles h
  have hset (t key value : TValue) :
      Settles (opSet raw a chunk ins.op s t key value) :=
    newindexYieldable_settles _ _ _ _ _ _ hs
  have hunary (out : Option TValue) : Settles (opUnary raw a chunk ins out s) := by
    unfold opUnary
    simp only
    split
    · exact hs
    · split
      · exact invokeMm_finish_settles hs
      · exact trivial
  have harith : Settles (opArith raw a chunk ins s) := by
    unfold opArith
    simp only
    split
    · exact hs
    · exact trivial
    · exact opMm_settles _ hs _ _ _
  unfold execute
  simp only
  split
  · exact hget _ _
  · exact hget _ _
  · exact hget _ _
  · exact hget _ _
  · exact hset _ _ _
  · exact hset _ _ _
  · exact hset _ _ _
  · exact hset _ _ _
  · unfold opSelf
    refine indexYieldable_settles _ ?_ ?_ _ _ _ _ hs
    · exact fun _ _ h => h
    · exact fun _ h => finishSelf_settles _ _ h
  all_goals first
    | exact harith
    | exact hunary _
    | exact opLe_settles hpc hins (by assumption) hs
    | skip
  · unfold opLen
    simp only
    split
    · exact hs
    · split
      · split
        · exact invokeMm_finish_settles hs
        · exact hs
      · split
        · exact fun L => hs
        · exact trivial
  · unfold opConcat
    simp only
    split
    · split
      · exact trivial
      · exact hs
    · exact concatLoop_settles _ _ _ _ _ hs
  · unfold opEq
    simp only
    split
    · exact hs
    · split
      all_goals
        first
          | exact hs
          | split
            · exact hs
            · split
              · exact invokeMm_finish_settles hs
              · exact hs
  · unfold opLt
    simp only
    split
    · exact hs
    · split
      · exact hs
      · exact opMm_settles _ rfl _ _ _

theorem Settles.complete (calls : List MmCall) : ∀ {o : OpOutcome} {s' : Activation},
    Settles o → complete raw a chunk (calls.map MmCall.straight) o = .done s' →
      s'.fr.leInvert = false := by
  induction calls with
  | nil =>
      intro o s' ho h
      cases o with
      | done s =>
          cases h
          exact ho
      | raised e L => cases h
      | call s inline => cases h
      | nested s inline => cases h
  | cons c calls ih =>
      intro o s' ho h
      cases o with
      | done s =>
          cases h
          exact ho
      | raised e L => cases h
      | call s inline =>
          rw [List.map_cons] at h
          cases hc : c.effect s.L with
          | error e L =>
              rw [complete_straight_error hc] at h
              cases h
          | ok u L =>
              rw [complete_straight_ok hc] at h
              exact ih (ho L) h
      | nested s inline =>
          have hstraight : c.straight.yields = false := rfl
          rw [List.map_cons, Chunk.complete, completeFrom, hstraight,
            if_neg Bool.false_ne_true, c.effect_straight] at h
          cases hc : c.effect s.L with
          | error e L =>
              rw [hc] at h
              cases h
          | ok u L =>
              rw [hc] at h
              exact ih (ho L) h

/-- A frame that inverts no answer does not after an instruction, yields or not. -/
theorem leInvert_complete (raw : Raw) (a : Addr) (chunk : Chunk) (s s' : Activation)
    (calls : List MmCall) (hself : SelfKept raw a chunk s calls)
    (hs : s.fr.leInvert = false)
    (h : Chunk.complete raw a chunk calls (step raw a chunk s) = .done s') :
    s'.fr.leInvert = false := by
  have hsettles : Settles (step raw a chunk s) := by
    unfold step
    split
    · exact hs
    · rename_i ins hins
      exact execute_settles (s := { s with fr := { s.fr with savedPc := _ } }) rfl hins hs
  have hyields : ¬ LenYields a chunk s calls := fun hyields => by
    rw [complete_lost hyields] at h
    cases h
  have hstays : ¬ Dangles chunk false calls (step raw a chunk s) := fun hdangles => by
    rw [complete_wild hdangles] at h
    cases h
  have hsame := complete_same_of_stays raw a chunk s calls hself hyields hstays
  rw [h] at hsame
  cases hstraight : Chunk.complete raw a chunk (calls.map MmCall.straight)
      (step raw a chunk s) with
  | done s'' =>
      rw [hstraight] at hsame
      rw [hsame.1]
      exact hsettles.complete calls hstraight
  | raised e L | waiting | lost | wild =>
      rw [hstraight] at hsame
      exact hsame.elim

theorem bind_ok (r : Result Bool) : (r.bind fun b L => .ok (b != false) L).verdict =
    r.verdict := by
  cases r with
  | ok b L => cases b <;> rfl
  | error e L => rfl

theorem bind_not (r : Result Bool) : (r.bind fun b L => .ok (b != true) L).verdict =
    (r.bind fun b L => .ok (!b) L).verdict := by
  cases r with
  | ok b L => cases b <;> rfl
  | error e L => rfl

theorem exists_luaNumber {v : TValue} (h : v.isNumber = true) :
    ∃ x : LuaNumber, v = x.tvalue := by
  cases v with
  | integer i => exact ⟨.int i, rfl⟩
  | number w => exact ⟨.float w, rfl⟩
  | _ => cases h

theorem isNumber_tvalue (x : LuaNumber) : x.tvalue.isNumber = true := by
  cases x <;> rfl

section Verdicts

variable {s : Activation} {pc : Nat} {ins : Instruction}

theorem opEq_verdict (hpc : s.fr.savedPc = pc + 1) (hins : chunk.code[pc]? = some ins)
    (hop : ins.op = .eq) (c : MmCall) (hinvert : s.fr.leInvert = false) :
    (complete raw a chunk [c] (opEq raw a chunk ins s)).verdict ins (pc + 1) =
      (s.L.metaEq a c.effect (s.reg a ins.b) (s.reg a ins.c)).verdict := by
  have hdone (b : Bool) (L : State) : (Ending.done ((s.withState L).skipIf
      (b != (ins.a != 0)))).verdict ins (pc + 1) = .answer b :=
    verdict_skipIf (s := s.withState L) hpc b
  unfold opEq State.metaEq
  simp only
  generalize s.reg a ins.b = v
  generalize s.reg a ins.c = w
  split
  · exact hdone false s.L
  · cases v with
    | table t | function f | userdata u =>
        simp only
        split
        · exact hdone true s.L
        · split
          · rename_i hmm
            refine (invokeMm_verdict ?_ hins (.inl hop) c hmm _).trans ?_
            · exact hpc
            · show (Result.bind _ fun b L => .ok (b != s.fr.leInvert) L).verdict = _
              rw [hinvert]
              exact bind_ok _
          · exact hdone false _
    | _ => exact hdone _ s.L

theorem opLt_verdict (hpc : s.fr.savedPc = pc + 1) (hins : chunk.code[pc]? = some ins)
    (hop : ins.op = .lt) (c : MmCall)
    (hnum : ¬ ((s.reg a ins.b).isNumber && (s.reg a ins.c).isNumber) = true) :
    (complete raw a chunk [c] (opLt raw a chunk ins s)).verdict ins (pc + 1) =
      (s.L.metaLt raw a c.effect (s.reg a ins.b) (s.reg a ins.c)).verdict := by
  unfold opLt State.metaLt
  simp only
  rw [if_neg hnum, if_neg hnum]
  split
  · exact verdict_skipIf hpc _
  · unfold opMm
    simp only
    split
    · rename_i hmm
      change (s.L.getMetamethod2 _ _ .lt).1.isFunction = true at hmm
      rw [if_pos hmm]
      refine (invokeMm_verdict ?_ hins (.inr (.inl hop)) c hmm _).trans ?_
      · exact hpc
      · exact bind_ok _
    · rename_i hmm
      change ¬ (s.L.getMetamethod2 _ _ .lt).1.isFunction = true at hmm
      rw [if_neg hmm]
      rfl

theorem opLe_verdict (hpc : s.fr.savedPc = pc + 1) (hins : chunk.code[pc]? = some ins)
    (hop : ins.op = .le) (c : MmCall)
    (hnum : ¬ ((s.reg a ins.b).isNumber && (s.reg a ins.c).isNumber) = true) :
    (complete raw a chunk [c] (opLe raw a chunk ins s)).verdict ins (pc + 1) =
      (s.L.metaLe raw a c.effect (s.reg a ins.b) (s.reg a ins.c)).verdict := by
  unfold opLe State.metaLe
  simp only
  rw [if_neg hnum, if_neg hnum]
  split
  · exact verdict_skipIf hpc _
  · rename_i hstr
    split
    · rename_i hmm
      refine (invokeMm_verdict ?_ hins (.inr (.inr hop)) c hmm _).trans ?_
      · exact hpc
      · exact bind_ok _
    · -- The library asks for `rc < rb` by its own `meta_lt`.
      generalize (s.L.getMetamethod2 (s.reg a ins.b) (s.reg a ins.c) .le).2 = L
      unfold State.metaLt
      simp only
      rw [Bool.and_comm] at hnum hstr
      rw [if_neg hnum, if_neg hstr]
      split
      · rename_i hmm
        change (L.getMetamethod2 _ _ .lt).1.isFunction = true at hmm
        rw [if_pos hmm]
        refine (invokeMm_verdict ?_ hins (.inr (.inr hop)) c hmm _).trans ?_
        · exact hpc
        · exact bind_not _
      · rename_i hmm
        change ¬ (L.getMetamethod2 _ _ .lt).1.isFunction = true at hmm
        rw [if_neg hmm]
        rfl

end Verdicts

/-- Two different numbers that an ordering takes for one float. -/
def Confused (op : OpCode) (v w : TValue) : Prop :=
  ∃ x y : LuaNumber, v = x.tvalue ∧ w = y.tvalue ∧
    (op = .lt ∧ x.RoundsTogether y ∨ op = .le ∧ y.RoundsTogether x)

theorem Confused.numbers {op : OpCode} {v w : TValue} (h : Confused op v w) :
    (v.isNumber && w.isNumber) = true := by
  obtain ⟨x, y, rfl, rfl, -⟩ := h
  rw [isNumber_tvalue, isNumber_tvalue]
  rfl

theorem confused_lt {x y : LuaNumber} :
    Confused .lt x.tvalue y.tvalue ↔ x.RoundsTogether y := by
  constructor
  · rintro ⟨x', y', hx, hy, ⟨-, h⟩ | ⟨h, -⟩⟩
    · cases LuaNumber.tvalue_inj hx
      cases LuaNumber.tvalue_inj hy
      exact h
    · cases h
  · exact fun h => ⟨x, y, rfl, rfl, .inl ⟨rfl, h⟩⟩

theorem confused_le {x y : LuaNumber} :
    Confused .le x.tvalue y.tvalue ↔ y.RoundsTogether x := by
  constructor
  · rintro ⟨x', y', hx, hy, ⟨h, -⟩ | ⟨-, h⟩⟩
    · cases h
    · cases LuaNumber.tvalue_inj hx
      cases LuaNumber.tvalue_inj hy
      exact h
  · exact fun h => ⟨x, y, rfl, rfl, .inr ⟨rfl, h⟩⟩

/-- The opcode and the library differ on two numbers that are the same float only. -/
theorem compare_agree_iff (raw : Raw) (a : Addr) (chunk : Chunk) (c : MmCall)
    (s : Activation) (ins : Instruction) (hins : chunk.code[s.fr.savedPc]? = some ins)
    (hop : ins.op = .eq ∨ ins.op = .lt ∨ ins.op = .le)
    (hinvert : s.fr.leInvert = false) :
    opVerdict raw a chunk c s ins = metaVerdict raw a c s ins ↔
      ¬ Confused ins.op (s.reg a ins.b) (s.reg a ins.c) := by
  let s₁ : Activation := { s with fr := { s.fr with savedPc := s.fr.savedPc + 1 } }
  have hpc : s₁.fr.savedPc = s.fr.savedPc + 1 := rfl
  have hstep : step raw.exact a chunk s = execute raw.exact a chunk ins s₁ := by
    unfold step
    rw [hins]
  unfold opVerdict metaVerdict
  rw [hstep]
  unfold execute
  rcases hop with hop | hop | hop
  · simp only [hop]
    refine iff_of_true (opEq_verdict (s := s₁) hpc hins hop c hinvert) ?_
    rintro ⟨x, y, -, -, ⟨h, -⟩ | ⟨h, -⟩⟩ <;> cases h
  · simp only [hop]
    by_cases hnum : ((s.reg a ins.b).isNumber && (s.reg a ins.c).isNumber) = true
    · obtain ⟨hb, hc⟩ := Bool.and_eq_true_iff.mp hnum
      obtain ⟨x, hx⟩ := exists_luaNumber hb
      obtain ⟨y, hy⟩ := exists_luaNumber hc
      have hop' : opLt raw.exact a chunk ins s₁ =
          .done (s₁.skipIf (numberLt (s.reg a ins.b) (s.reg a ins.c) != (ins.a != 0))) :=
        if_pos hnum
      have hmeta : s.L.metaLt raw a c.effect (s.reg a ins.b) (s.reg a ins.c) =
          .ok ((s.reg a ins.b).toNumber.lt (s.reg a ins.c).toNumber) s.L := if_pos hnum
      rw [hop', hmeta, complete_done, verdict_skipIf hpc, hx, hy, confused_lt,
        ← LuaNumber.toNumber_lt_iff, Result.verdict, Verdict.answer.injEq]
      exact eq_comm
    · exact iff_of_true (opLt_verdict (s := s₁) hpc hins hop c hnum)
        fun h => hnum h.numbers
  · simp only [hop]
    by_cases hnum : ((s.reg a ins.b).isNumber && (s.reg a ins.c).isNumber) = true
    · obtain ⟨hb, hc⟩ := Bool.and_eq_true_iff.mp hnum
      obtain ⟨x, hx⟩ := exists_luaNumber hb
      obtain ⟨y, hy⟩ := exists_luaNumber hc
      have hop' : opLe raw.exact a chunk ins s₁ =
          .done (s₁.skipIf (numberLe (s.reg a ins.b) (s.reg a ins.c) != (ins.a != 0))) :=
        if_pos hnum
      have hmeta : s.L.metaLe raw a c.effect (s.reg a ins.b) (s.reg a ins.c) =
          .ok ((s.reg a ins.b).toNumber.le (s.reg a ins.c).toNumber) s.L := if_pos hnum
      rw [hop', hmeta, complete_done, verdict_skipIf hpc, hx, hy, confused_le,
        ← LuaNumber.toNumber_le_iff, Result.verdict, Verdict.answer.injEq]
      exact eq_comm
    · exact iff_of_true (opLe_verdict (s := s₁) hpc hins hop c hnum)
        fun h => hnum h.numbers

def comparing : Activation where
  L :=
    { main := some 1
      current := some 1
      heap := [(1, .thread
        { stack := [.integer 9007199254740992, .integer 9007199254740993]
          frames := [{}]
          top := 2
          status := .running })] }
  fr := {}

def compareRegisters (op : OpCode) (b c : Nat) : Chunk where
  code := [{ op, a := 1, b, c }]

theorem compare_agree_le :
    opVerdict noRaw 1 (compareRegisters .le 0 1) yieldingCall comparing
        { op := .le, a := 1, b := 0, c := 1 } =
      metaVerdict noRaw 1 yieldingCall comparing { op := .le, a := 1, b := 0, c := 1 } := by
  refine (compare_agree_iff noRaw 1 _ _ _ _ rfl (.inr (.inr rfl)) rfl).mpr ?_
  have h : ¬ Confused .le (LuaNumber.int 9007199254740992).tvalue
      (LuaNumber.int 9007199254740993).tvalue := by
    rw [confused_le]
    exact fun h => nomatch (h.1 :)
  exact h

/-- `2 ^ 53 < 2 ^ 53 + 1` as an opcode, and in `table.sort`. -/
theorem sort_order_differs :
    opVerdict noRaw 1 (compareRegisters .lt 0 1) yieldingCall comparing
        { op := .lt, a := 1, b := 0, c := 1 } = .answer true ∧
      metaVerdict noRaw 1 yieldingCall comparing
        { op := .lt, a := 1, b := 0, c := 1 } = .answer false := by
  constructor <;> decide

end Chunk

end Luatier
