import Luatier.Frontend.GotoStmts
import Luatier.Frontend.GotoPlaces

/-!
# Blocks and the linker

A block does what the linker does for its events, if its statements do.
-/

namespace Luatier.Lowering

open StateFrame

variable {α β : Type} {P : Proto α → Prop} {s t v : LowerState α} {a b : Linker}

theorem stmtItems_cons_plain {stmt : Stmt} (h : stmt.isPlain = true) (stmts : List Stmt) :
    (stmtItems (stmt :: stmts) : List (BlockItem α)) =
      .stmt (statement stmt) :: stmtItems stmts := by
  cases stmt <;> first | rfl | exact nomatch h

theorem all_isLabel_stmtItems (stmts : List Stmt) :
    (stmtItems stmts : List (BlockItem α)).all BlockItem.isLabel = stmts.all Stmt.isLabel := by
  induction stmts with
  | nil => rfl
  | cons stmt stmts ih =>
      rcases stmt.label_or_goto_or_plain with ⟨name, rfl⟩ | ⟨name, rfl⟩ | hplain
      · rw [stmtItems, List.all_cons, List.all_cons, ih]
        rfl
      · rfl
      · rw [stmtItems_cons_plain hplain, List.all_cons, List.all_cons, ih]
        cases stmt <;> first | rfl | exact nomatch hplain

theorem labelNames_stmtItems (stmts : List Stmt) :
    (stmtItems stmts : List (BlockItem α)).filterMap BlockItem.labelName? =
      stmts.filterMap Stmt.labelName? := by
  induction stmts with
  | nil => rfl
  | cons stmt stmts ih =>
      rcases stmt.label_or_goto_or_plain with ⟨name, rfl⟩ | ⟨name, rfl⟩ | hplain
      · rw [stmtItems]
        exact congrArg (name :: ·) ih
      · rw [stmtItems]
        exact ih
      · rw [stmtItems_cons_plain hplain]
        cases stmt <;> first | exact ih | exact nomatch hplain

theorem Remembers.mono {marks marks' : List Mark} {blocks : List OpenBlock}
    {own : List (Name × Nat)} {defined : Defined} (h : Remembers marks blocks own defined)
    (hin : ∀ block ∈ blocks, ∀ name k, block.defined.lookup name = some k → k < marks.length)
    (hgrown : marks <+: marks') : Remembers marks' blocks own defined := by
  refine ⟨h.names, fun x hx => (h.old x hx).trans ?_⟩
  rw [outerLabel, outerLabel]
  cases hk : blocks.findSome? (·.defined.lookup x.1) with
  | none => rfl
  | some k =>
      obtain ⟨block, hblock, hlookup⟩ := List.exists_of_findSome?_eq_some hk
      have hlt := hin block hblock x.1 k hlookup
      obtain ⟨rest, rfl⟩ := hgrown
      show _ = (marks ++ rest)[k]?.map Mark.info
      rw [List.getElem?_append_left hlt]
      rfl

structure InBlock (marks : List Mark) (declRegs : List Nat) (names : List Name)
    (entry : Nat) (blocks : List OpenBlock) (block : OpenBlock) (defined : Defined) :
    Prop where
  names : block.names = names
  entry : MarkScope declRegs entry block.entry
  remembers : Remembers marks blocks block.defined defined

theorem InBlock.mono {marks marks' : List Mark} {declRegs declRegs' : List Nat}
    {names : List Name} {entry : Nat} {blocks : List OpenBlock} {block : OpenBlock}
    {defined : Defined} (h : InBlock marks declRegs names entry blocks block defined)
    (hin : ∀ block ∈ blocks, ∀ name k, block.defined.lookup name = some k → k < marks.length)
    (hmarks : marks <+: marks') (hregs : declRegs <+: declRegs') :
    InBlock marks' declRegs' names entry blocks block defined := by
  obtain ⟨rest, rfl⟩ := hregs
  exact ⟨h.names, h.entry.append rest, h.remembers.mono hin hmarks⟩

theorem lowerLabel_ok {name : Name} {last : Bool} {entry : Nat} {defined defined' : Defined}
    (hm : lowerLabel name last entry defined s = .ok (defined', t)) :
    (defined.lookup name).isSome = false ∧
      defined' = (name, s.fs.labels.lookup name) :: defined ∧
      t = ⟨s.fs.addLabel name (if last then entry else s.fs.nactvar), s.prev⟩ := by
  unfold lowerLabel at hm
  cases hdef : (defined.lookup name).isSome with
  | true =>
      rw [hdef] at hm
      exact nomatch hm
  | false =>
      rw [hdef] at hm
      cases hm
      exact ⟨rfl, rfl, rfl⟩

theorem Simulates.outer {fs : FuncState α} (h : Simulates fs a) {block : OpenBlock}
    {blocks : List OpenBlock} (hblocks : a.blocks = block :: blocks) {name : Name}
    (hnew : (block.defined.lookup name).isSome = false) :
    fs.labels.lookup name = outerLabel fs.labelMarks blocks name := by
  have hnone : block.defined.lookup name = none := by
    rw [← Option.not_isSome_iff_eq_none, hnew]
    exact Bool.false_ne_true
  rw [h.labels, Linker.seen, hblocks, List.findSome?_cons, hnone]
  rfl

theorem Remembers.define {marks : List Mark} {blocks : List OpenBlock}
    {own : List (Name × Nat)} {defined : Defined} (h : Remembers marks blocks own defined)
    (name : Name) (k : Nat) {old : Option LabelInfo} (hold : old = outerLabel marks blocks name) :
    Remembers marks blocks ((name, k) :: own) ((name, old) :: defined) := by
  refine ⟨fun n => ?_, fun x hx => ?_⟩
  · rw [List.lookup_cons, List.lookup_cons]
    cases n == name with
    | true => rfl
    | false => exact h.names n
  · rcases List.mem_cons.mp hx with rfl | hx
    · exact hold
    · exact h.old x hx

theorem blockItems_ok (allowLast : Bool) {names : List Name} {entry : Nat}
    {blocks : List OpenBlock} : ∀ (stmts : List Stmt),
    (∀ stmt ∈ stmts, stmt.isPlain = true → Emits P (statement stmt) stmt.labelEvents) →
    ∀ {s a block defined defined' t}, Simulates s.fs a → s.fs.Tidy →
      a.blocks = block :: blocks →
      InBlock s.fs.labelMarks s.fs.declRegs names entry blocks block defined →
      blockItems names allowLast entry (stmtItems stmts) defined s = .ok (defined', t) →
      ∃ b own, Linker.run (stmtsLabelEvents allowLast stmts) a = some b ∧ Reached P s t b ∧
        b.blocks = { block with defined := own } :: blocks ∧ b.saved = a.saved ∧
        Remembers t.fs.labelMarks blocks own defined' := by
  intro stmts
  induction stmts with
  | nil =>
      intro _ s a block defined defined' t hs _ hblocks hin hm
      cases hm
      exact ⟨a, block.defined, rfl, .refl hs, hblocks, rfl, hin.remembers⟩
  | cons stmt stmts ih =>
      intro hstmts s a block defined defined' t hs htidy hblocks hin hm
      have houter : ∀ block' ∈ blocks, ∀ name k, block'.defined.lookup name = some k →
          k < s.fs.labelMarks.length := by
        intro block' hmem
        refine hs.defined block' ?_
        rw [hblocks]
        exact List.mem_cons_of_mem _ hmem
      -- What is left to do once the first statement is done.
      have hrest : ∀ {s₁ a₁ own defined₁} {es : List LabelEvent}, Linker.run es a = some a₁ →
          Reached P s s₁ a₁ → s₁.fs.Tidy → a₁.blocks = { block with defined := own } :: blocks →
          a₁.saved = a.saved → Remembers s₁.fs.labelMarks blocks own defined₁ →
          blockItems names allowLast entry (stmtItems stmts) defined₁ s₁ =
            .ok (defined', t) →
          ∃ b own, Linker.run (es ++ stmtsLabelEvents allowLast stmts) a = some b ∧
            Reached P s t b ∧ b.blocks = { block with defined := own } :: blocks ∧
            b.saved = a.saved ∧ Remembers t.fs.labelMarks blocks own defined' := by
        intro s₁ a₁ own defined₁ es hrun h₁ htidy₁ hblocks₁ hsaved₁ hremembers hm
        have hin₁ := hin.mono houter h₁.grows.labels h₁.grows.declRegs
        obtain ⟨b, own', hrun', h₂, hblocks₂, hsaved₂, hremembers₂⟩ :=
          ih (fun stmt hmem => hstmts stmt (List.mem_cons_of_mem _ hmem)) h₁.sim htidy₁
            hblocks₁ ⟨hin₁.names, hin₁.entry, hremembers⟩ hm
        exact ⟨b, own', Linker.run_run hrun hrun', h₁.trans h₂, hblocks₂,
          hsaved₂.trans hsaved₁, hremembers₂⟩
      rcases stmt.label_or_goto_or_plain with ⟨name, rfl⟩ | ⟨name, rfl⟩ | hplain
      · rw [stmtItems, blockItems, all_isLabel_stmtItems] at hm
        obtain ⟨defined₁, s₁, hlabel, hm⟩ := bind_ok.mp hm
        obtain ⟨hnone, rfl, rfl⟩ := lowerLabel_ok hlabel
        have hnew : (block.defined.lookup name).isSome = false := by
          rw [← hin.remembers.names]
          exact hnone
        have hscope : MarkScope s.fs.declRegs
            (if allowLast && stmts.all Stmt.isLabel then entry else s.fs.nactvar)
            (if allowLast && stmts.all Stmt.isLabel then block.entry else a.scope) := by
          cases allowLast && stmts.all Stmt.isLabel with
          | true => exact hin.entry
          | false => exact hs.here
        obtain ⟨a₁, hstep, h₁, hblocks₁, hsaved₁, -⟩ :=
          (Reached.refl hs).label hblocks hnew hscope
        refine hrest (Linker.run_one hstep) h₁ htidy hblocks₁ hsaved₁ ?_ hm
        refine Remembers.mono ?_ houter h₁.grows.labels
        exact hin.remembers.define name a.labelScopes.length (hs.outer hblocks hnew)
      · rw [stmtItems, blockItems] at hm
        obtain ⟨_, _, hget, hm⟩ := bind_ok.mp hm
        cases hget
        obtain ⟨_, s₁, hgoto, hm⟩ := bind_ok.mp hm
        have hknown : (if names.contains name && !(defined.lookup name).isSome then none
            else s.fs.labels.lookup name) =
            (a.known name).bind fun k => s.fs.labelMarks[k]?.map Mark.info := by
          rw [Linker.known, hblocks, hin.remembers.names, ← hin.names, hs.labels]
          dsimp only
          cases block.names.contains name && !(block.defined.lookup name).isSome <;> rfl
        obtain ⟨a₁, hstep, h₁, hblocks₁, hsaved₁, -, hactive, hfree⟩ :=
          (Reached.refl hs).goto hknown hgoto
        have htidy₁ : s₁.fs.Tidy := by
          rw [FuncState.Tidy, hactive, hfree]
          exact htidy
        exact hrest (Linker.run_one hstep) h₁ htidy₁
          (hblocks₁.trans hblocks) hsaved₁ (hin.remembers.mono houter h₁.grows.labels) hm
      · rw [stmtItems_cons_plain hplain, blockItems] at hm
        obtain ⟨_, s₁, hemit, hm⟩ := bind_ok.mp hm
        obtain ⟨a₁, hrun, h₁, htidy₁, hblocks₁, hsaved₁⟩ :=
          hstmts stmt List.mem_cons_self hplain s s₁ a hs htidy hemit
        rw [stmtsLabelEvents_plain hplain]
        exact hrest hrun h₁ htidy₁ (hblocks₁.trans hblocks) hsaved₁
          (hin.remembers.mono houter h₁.grows.labels) hm

/-! ## Whole blocks -/

theorem emitsOpen_block (allowLast : Bool) (stmts : List Stmt)
    (hstmts : ∀ stmt ∈ stmts, stmt.isPlain = true →
      Emits P (statement stmt) stmt.labelEvents) :
    EmitsOpen P (lowerBlock allowLast false (stmtItems stmts))
      (.openScope :: .enter (stmts.filterMap Stmt.labelName?) ::
        (stmtsLabelEvents allowLast stmts ++ [.leave])) := by
  intro s t a hs htidy hm
  obtain ⟨_, _, hget, hm⟩ := bind_ok.mp hm
  cases hget
  rw [labelNames_stmtItems] at hm
  obtain ⟨defined, s₁, hitems, hm⟩ := bind_ok.mp hm
  let names := stmts.filterMap Stmt.labelName?
  let entered : Linker := { a with
    saved := a.scope.length :: a.saved
    blocks := ⟨names, [], a.waiting.length, a.scope⟩ :: a.blocks }
  have hentered : Simulates s.fs entered := { hs with
    defined := fun block hblock name k hk => by
      rcases List.mem_cons.mp hblock with rfl | hblock
      · exact nomatch hk
      · exact hs.defined block hblock name k hk }
  have hin : InBlock s.fs.labelMarks s.fs.declRegs names s.fs.nactvar a.blocks
      ⟨names, [], a.waiting.length, a.scope⟩ [] :=
    ⟨rfl, hs.here, fun _ => rfl, fun _ h => nomatch h⟩
  obtain ⟨b, own, hrun, h₁, hblocks, hsaved, hremembers⟩ :=
    blockItems_ok allowLast stmts hstmts hentered htidy rfl hin hitems
  obtain ⟨_, _, hget, hm⟩ := bind_ok.mp hm
  cases hget
  obtain ⟨remain, s₂, hpatch, hm⟩ := bind_ok.mp hm
  obtain ⟨c, hstep, h₂, hblocks₂, hsaved₂, -, -⟩ :=
    h₁.leave hblocks hs.pending.length_eq.symm hremembers hpatch
  obtain ⟨_, s₃, htake, hm⟩ := bind_ok.mp hm
  obtain ⟨_, s₄, hrestore, hm⟩ := bind_ok.mp hm
  cases hm
  rw [modifyFs_ok hrestore, modifyFs_ok htake]
  have hbody : Linker.run (.openScope :: .enter names :: stmtsLabelEvents allowLast stmts) a =
      some b := hrun
  exact ⟨c, Linker.run_run hbody (Linker.run_one hstep), h₂, hblocks₂,
    hsaved₂.trans hsaved⟩

theorem lowerBlock_close {allowLast : Bool} {items : List (BlockItem α)}
    (hm : lowerBlock allowLast true items s = .ok ((), t)) :
    ∃ u, lowerBlock allowLast false items s = .ok ((), u) ∧
      t = ⟨u.fs.leaveBlock s.fs.locals.length true, u.prev⟩ := by
  obtain ⟨_, _, hget, hm⟩ := bind_ok.mp hm
  cases hget
  obtain ⟨defined, s₁, hitems, hm⟩ := bind_ok.mp hm
  obtain ⟨_, _, hget, hm⟩ := bind_ok.mp hm
  cases hget
  obtain ⟨remain, s₂, hpatch, hm⟩ := bind_ok.mp hm
  obtain ⟨_, s₃, htake, hm⟩ := bind_ok.mp hm
  obtain ⟨_, s₄, hrestore, hm⟩ := bind_ok.mp hm
  rw [if_pos rfl] at hm
  refine ⟨s₄, ?_, modifyFs_ok hm⟩
  exact bind_ok.mpr ⟨_, _, rfl, bind_ok.mpr ⟨_, _, hitems, bind_ok.mpr ⟨_, _, rfl,
    bind_ok.mpr ⟨_, _, hpatch, bind_ok.mpr ⟨_, _, htake, bind_ok.mpr ⟨_, _, hrestore, rfl⟩⟩⟩⟩⟩⟩

theorem emits_block (allowLast : Bool) (stmts : List Stmt)
    (hstmts : ∀ stmt ∈ stmts, stmt.isPlain = true →
      Emits P (statement stmt) stmt.labelEvents) :
    Emits P (lowerBlock allowLast true (stmtItems stmts))
      (Block.labelEvents allowLast (.mk stmts)) := by
  intro s t a hs htidy hm
  obtain ⟨u, hopen, rfl⟩ := lowerBlock_close hm
  obtain ⟨b, hrun, h, hblocks, hsaved⟩ :=
    emitsOpen_block allowLast stmts hstmts s u a hs htidy hopen
  obtain ⟨hstep, h', htidy', -⟩ := Reached.leaveBlock hs h hsaved hs.length_locals true
  refine ⟨_, ?_, h', htidy', hblocks, rfl⟩
  have hevents : Block.labelEvents allowLast (.mk stmts) =
      (.openScope :: .enter (stmts.filterMap Stmt.labelName?) ::
        (stmtsLabelEvents allowLast stmts ++ [.leave])) ++ [.closeScope] := by
    rw [Block.labelEvents, List.cons_append, List.cons_append, List.append_assoc]
    rfl
  rw [hevents]
  exact Linker.run_run hrun (Linker.run_one hstep)

end Luatier.Lowering
