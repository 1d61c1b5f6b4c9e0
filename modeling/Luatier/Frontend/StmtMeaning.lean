import Luatier.Frontend.ValueLists

/-!
# The code of statements

What the code of a statement does, how it is put together with the code after it,
and how a block ends.
-/

namespace Luatier.Lowering

open Realising

variable {α V σ ε X Y Z : Type}

/-! ## States between statements -/

/-- Where a statement can be lowered: no local is captured, and no goto waits. -/
structure Sited (s : LowerState α) : Prop where
  ready : Ready s
  uncaptured : ∀ l ∈ s.fs.locals, l.captured = false
  sorted : s.fs.locals.Pairwise fun l l' => l.reg < l'.reg
  active : activeVars s.fs.locals = s.fs.nactvar
  gotos : s.fs.pendingGotos = []
  breaks : ∀ j ∈ s.fs.breakList, j < s.fs.pc

/-- What a statement leaves: code, constants, locals and breaks are added. -/
structure Grown (s t : LowerState α) : Prop where
  code : s.fs.code <+: t.fs.code
  constants : s.fs.constants <+: t.fs.constants
  maxstack : s.fs.maxstack ≤ t.fs.maxstack
  nactvar : s.fs.nactvar ≤ t.fs.nactvar
  locals : ∃ more, t.fs.locals = s.fs.locals ++ more ∧ ∀ l ∈ more, s.fs.nactvar ≤ l.reg
  breaks : ∃ more, t.fs.breakList = s.fs.breakList ++ more ∧
    ∀ j ∈ more, s.fs.pc ≤ j ∧ t.fs.code[j]? = some (encodeAsbx .jmp 0 0)

/-- The function has the code of `fs`, and its breaks go to `exit`. -/
def Follows (p : Proto α) (fs : FuncState α) (lo hi exit : Nat) : Prop :=
  ∀ i, lo ≤ i → i < hi → p.code[i]? =
    if i ∈ fs.breakList then some (encodeAsbx .jmp 0 ((exit : Int) - (i + 1))) else fs.code[i]?

section States

variable {s t u : LowerState α} {p : Proto α} {lo hi exit : Nat}

theorem Extends.breakList (h : Extends s t) : t.fs.breakList = s.fs.breakList :=
  (congrArg FuncState.breakList h.rest : t.fs.rest.breakList = s.fs.rest.breakList)

theorem Extends.pendingGotos (h : Extends s t) : t.fs.pendingGotos = s.fs.pendingGotos :=
  (congrArg FuncState.pendingGotos h.rest : t.fs.rest.pendingGotos = s.fs.rest.pendingGotos)

theorem Extends.onward (h : Extends s t) : Grown s t where
  code := h.code
  constants := h.constants
  maxstack := h.maxstack
  nactvar := Nat.le_of_eq h.nactvar.symm
  locals := ⟨[], by rw [h.locals, List.append_nil], by simp⟩
  breaks := ⟨[], by rw [h.breakList, List.append_nil], by simp⟩

theorem Sited.extends (hs : Sited s) (h : Extends s t) (hfree : s.fs.nactvar ≤ t.fs.freereg) :
    Sited t where
  ready :=
    have hready : Ready { t with fs := t.fs.setFreereg (max s.fs.freereg t.fs.freereg) } :=
      hs.ready.extends (h.setFreereg _) (Nat.le_max_left _ _)
    ⟨hready.main, hready.env, hready.only, hready.locals, h.nactvar ▸ hfree, hready.active⟩
  uncaptured l hl := hs.uncaptured l (h.locals ▸ hl)
  sorted := h.locals.symm ▸ hs.sorted
  active := by rw [h.locals, h.nactvar, hs.active]
  gotos := by rw [h.pendingGotos, hs.gotos]
  breaks j hj := by
    rw [h.breakList] at hj
    exact Nat.lt_of_lt_of_le (hs.breaks j hj) h.pc

theorem Grown.refl (s : LowerState α) : Grown s s := (Extends.refl s).onward

theorem Grown.pc (h : Grown s t) : s.fs.pc ≤ t.fs.pc := h.code.length_le

theorem Grown.trans (h : Grown s t) (h' : Grown t u) : Grown s u where
  code := h.code.trans h'.code
  constants := h.constants.trans h'.constants
  maxstack := h.maxstack.trans h'.maxstack
  nactvar := h.nactvar.trans h'.nactvar
  locals := by
    obtain ⟨more, hmore, hreg⟩ := h.locals
    obtain ⟨more', hmore', hreg'⟩ := h'.locals
    refine ⟨more ++ more', by rw [hmore', hmore, List.append_assoc], fun l hl => ?_⟩
    rcases List.mem_append.mp hl with hl | hl
    · exact hreg l hl
    · exact h.nactvar.trans (hreg' l hl)
  breaks := by
    obtain ⟨more, hmore, hjump⟩ := h.breaks
    obtain ⟨more', hmore', hjump'⟩ := h'.breaks
    refine ⟨more ++ more', by rw [hmore', hmore, List.append_assoc], fun j hj => ?_⟩
    rcases List.mem_append.mp hj with hj | hj
    · obtain ⟨hlo, hcode⟩ := hjump j hj
      refine ⟨hlo, ?_⟩
      rw [getElem?_grown h'.code (List.getElem?_eq_some_iff.mp hcode).1, hcode]
    · obtain ⟨hlo, hcode⟩ := hjump' j hj
      exact ⟨h.pc.trans hlo, hcode⟩

theorem Grown.take_locals (h : Grown s t) :
    t.fs.locals.take s.fs.locals.length = s.fs.locals := by
  obtain ⟨more, hmore, -⟩ := h.locals
  rw [hmore, List.take_left]

theorem Grown.locals_eq (h : Grown s t)
    (hnames : t.fs.locals.map Local.name = s.fs.locals.map Local.name) :
    t.fs.locals = s.fs.locals := by
  obtain ⟨more, hmore, -⟩ := h.locals
  have hlen := congrArg List.length hnames
  rw [hmore] at hlen ⊢
  simp only [List.length_map, List.length_append, Nat.add_eq_left] at hlen
  rw [List.length_eq_zero_iff.mp hlen, List.append_nil]

theorem Covers.onward (h : Covers p t.fs) (hg : Grown s t) : Covers p s.fs :=
  ⟨hg.constants.trans h.constants, hg.maxstack.trans h.maxstack⟩

theorem Follows.mono {fs : FuncState α} {lo' hi' : Nat} (h : Follows p fs lo hi exit)
    (hlo : lo ≤ lo') (hhi : hi' ≤ hi) : Follows p fs lo' hi' exit :=
  fun i hi₁ hi₂ => h i (hlo.trans hi₁) (Nat.lt_of_lt_of_le hi₂ hhi)

theorem Follows.before (h : Follows p t.fs lo hi exit) (hg : Grown s t) (hhi : hi ≤ s.fs.pc) :
    Follows p s.fs lo hi exit := by
  intro i hi₁ hi₂
  have hlt : i < s.fs.pc := Nat.lt_of_lt_of_le hi₂ hhi
  obtain ⟨more, hmore, hjump⟩ := hg.breaks
  have hmem : i ∈ t.fs.breakList ↔ i ∈ s.fs.breakList := by
    rw [hmore, List.mem_append]
    refine or_iff_left fun hi => ?_
    exact absurd (hjump i hi).1 (Nat.not_le.mpr hlt)
  rw [h i hi₁ hi₂, getElem?_grown hg.code hlt]
  simp only [hmem]

theorem Follows.agree (h : Follows p t.fs lo hi exit) (hs : Sited s)
    (hbreaks : t.fs.breakList = s.fs.breakList) (hlo : s.fs.pc ≤ lo) : Agree p t.fs lo hi := by
  intro i hi₁ hi₂
  rw [h i hi₁ hi₂, if_neg]
  intro hmem
  rw [hbreaks] at hmem
  have := hs.breaks i hmem
  omega

end States

/-! ## Runs -/

section Runs

variable {P : Primitives V σ ε} {p : Proto α} {s t u : LowerState α} {fuel exit : Nat}
  {ρ ρ' : Env V} {c c' : Config V σ}

/-- Since `c`, where `s` was lowered, only locals and registers above them have changed. -/
structure Ran (s : LowerState α) (fs : FuncState α) (ρ : Env V) (c : Config V σ) (ρ' : Env V)
    (c' : Config V σ) : Prop where
  holds : Holds fs ρ' c'
  varargs : ρ'.varargs = ρ.varargs
  hidden : ∀ r, r < s.fs.nactvar → (∀ l ∈ s.fs.locals, l.reg ≠ r) → c'.regs r = c.regs r

/-- The code runs as `ev` says, to its end or to the end of the loop around it. -/
def Runs (P : Primitives V σ ε) (p : Proto α) (fuel exit : Nat) (s t : LowerState α)
    (ev : Env V → Eval V σ ε (Flow × Env V)) : Prop :=
  ∀ n ρ c, n ≤ fuel → c.pc = s.fs.pc → Holds s.fs ρ c →
    ∀ (Y : Type) (k : Flow × Env V → Eval V σ ε Y) (post : Y × σ → Config V σ → Prop),
      (∀ ρ' c', c'.pc = t.fs.pc → Ran s t.fs ρ c ρ' c' →
        Realises (advance P p ρ.varargs) n c' (k (.next, ρ') c'.world) post) →
      (∀ ρ' c', c'.pc = exit → Ran s s.fs ρ c (ρ'.take s.fs.locals.length) c' →
        Realises (advance P p ρ.varargs) n c' (k (.broke, ρ') c'.world) post) →
      Realises (advance P p ρ.varargs) n c ((ev ρ >>= k) c.world) post

/-- What has been lowered for a statement; outside a loop there is no break. -/
structure Code (P : Primitives V σ ε) (inLoop : Bool) (s : LowerState α)
    (ev : Nat → Env V → Eval V σ ε (Flow × Env V)) (t : LowerState α) : Prop where
  grown : Grown s t
  sited : Sited t
  quiet : inLoop = false → t.fs.breakList = s.fs.breakList
  runs : ∀ p fuel exit, Small p → Covers p t.fs → exit ≤ p.code.length →
    Follows p t.fs s.fs.pc t.fs.pc exit → Runs P p fuel exit s t (ev fuel)

/-- The lowering of a statement among the locals `names`, to which it adds `more`. -/
def Executes (P : Primitives V σ ε) (inLoop : Bool) (names more : List Name) (m : Lower α Unit)
    (ev : Nat → Env V → Eval V σ ε (Flow × Env V)) : Prop :=
  ∀ s, Sited s → s.fs.locals.map Local.name = names → Ensures m s fun _ t =>
    Code P inLoop s ev t ∧ t.fs.locals.map Local.name = names ++ more

theorem Holds.first (h : Holds t.fs ρ c) (hg : Grown s t) :
    Holds s.fs (ρ.take s.fs.locals.length) c where
  scope := by
    rw [Env.take, ← h.scope, ← List.map_take, hg.take_locals]
  env := h.env

theorem Ran.refl (h : Holds s.fs ρ c) : Ran s s.fs ρ c ρ c := ⟨h, rfl, fun _ _ _ => rfl⟩

theorem Ran.trans {fs : FuncState α} {ρ'' : Env V} {c'' : Config V σ} (hg : Grown s t)
    (h : Ran s t.fs ρ c ρ' c') (h' : Ran t fs ρ' c' ρ'' c'') : Ran s fs ρ c ρ'' c'' where
  holds := h'.holds
  varargs := h'.varargs.trans h.varargs
  hidden r hr hlocals := by
    obtain ⟨more, hmore, hreg⟩ := hg.locals
    refine (h'.hidden r (Nat.lt_of_lt_of_le hr hg.nactvar) fun l hl => ?_).trans
      (h.hidden r hr hlocals)
    rw [hmore, List.mem_append] at hl
    rcases hl with hl | hl
    · exact hlocals l hl
    · have := hreg l hl
      omega

theorem Ran.first (hg : Grown s t) (h : Ran s t.fs ρ c ρ' c') :
    Ran s s.fs ρ c (ρ'.take s.fs.locals.length) c' :=
  ⟨h.holds.first hg, h.varargs, h.hidden⟩

theorem take_take (ρ : Env V) (hg : Grown s t) :
    (ρ.take t.fs.locals.length).take s.fs.locals.length = ρ.take s.fs.locals.length := by
  obtain ⟨more, hmore, -⟩ := hg.locals
  rw [Env.take, Env.take, Env.take, List.take_take, hmore, List.length_append,
    Nat.min_eq_left (Nat.le_add_right _ _)]

def andThen (ev ev' : Nat → Env V → Eval V σ ε (Flow × Env V)) (fuel : Nat) (ρ : Env V) :
    Eval V σ ε (Flow × Env V) := do
  let r ← ev fuel ρ
  match r.1 with
  | .next => ev' fuel r.2
  | .broke => pure r

theorem Code.andThen {inLoop : Bool} {ev ev' : Nat → Env V → Eval V σ ε (Flow × Env V)}
    (h : Code P inLoop s ev t) (h' : Code P inLoop t ev' u) :
    Code P inLoop s (andThen ev ev') u where
  grown := h.grown.trans h'.grown
  sited := h'.sited
  quiet hloop := (h'.quiet hloop).trans (h.quiet hloop)
  runs p fuel exit hsmall hcovers hexit hfollows n ρ c hn hpc hholds Y k post hnext hbroke := by
    have hfirst := h.runs p fuel exit hsmall (hcovers.onward h'.grown) hexit
      ((hfollows.mono (Nat.le_refl _) h'.grown.pc).before h'.grown (Nat.le_refl _))
    have hsecond := h'.runs p fuel exit hsmall hcovers hexit
      (hfollows.mono h.grown.pc (Nat.le_refl _))
    rw [Lowering.andThen, bind_assoc]
    refine hfirst n ρ c hn hpc hholds Y _ post (fun ρ₁ c₁ hpc₁ hran₁ => ?_)
      fun ρ₁ c₁ hpc₁ hran₁ => ?_
    · rw [← hran₁.varargs]
      refine hsecond n ρ₁ c₁ hn hpc₁ hran₁.holds Y k post (fun ρ₂ c₂ hpc₂ hran₂ => ?_)
        fun ρ₂ c₂ hpc₂ hran₂ => ?_
      · rw [hran₁.varargs]
        exact hnext ρ₂ c₂ hpc₂ (hran₁.trans h.grown hran₂)
      · rw [hran₁.varargs]
        refine hbroke ρ₂ c₂ hpc₂ ?_
        rw [← take_take ρ₂ h.grown]
        exact (hran₁.trans h.grown hran₂).first h.grown
    · rw [pure_bind]
      exact hbroke ρ₁ c₁ hpc₁ hran₁

/-! ## Blocks -/

theorem closeLevel_none {locals : List Local} (h : ∀ l ∈ locals, l.captured = false) :
    closeLevel locals = none := by
  have hnil : locals.filter Local.captured = [] := by
    refine List.filter_eq_nil_iff.mpr fun l hl => ?_
    rw [h l hl]
    exact Bool.false_ne_true
  rw [closeLevel, hnil]
  rfl

def FuncState.leaveOpen (fs : FuncState α) (locals : List Local) : FuncState α :=
  ((fs.keepLocals locals).setFreereg (activeVars locals)).raiseHwm

theorem leaveBlock_uncaptured {fs : FuncState α} {saved : Nat} {clear : Bool}
    (h : ∀ l ∈ fs.locals, l.captured = false) :
    fs.leaveBlock saved clear = (if clear then fs.clearDead (fs.locals.drop saved)
      else fs).leaveOpen (fs.locals.take saved) := by
  have hnone := closeLevel_none fun l (hl : l ∈ fs.locals.drop saved) =>
    h l (List.mem_of_mem_drop hl)
  rw [FuncState.leaveBlock, FuncState.closeJump, hnone]
  rfl

theorem clearDead_cases (fs : FuncState α) (closing : List Local) :
    fs.clearDead closing = fs ∨ ∃ l ∈ closing, ∃ n,
      fs.clearDead closing = fs.emit (encodeAbc .loadNil l.reg n 0) := by
  rw [FuncState.clearDead]
  split
  · rename_i first last hdead
    rw [FuncState.deadRange] at hdead
    split at hdead
    · rename_i hmin _ _
      cases hdead
      obtain ⟨l, hl, rfl⟩ := List.mem_map.mp (List.min?_mem hmin)
      split
      · exact .inr ⟨l, (List.mem_filter.mp hl).1, _, rfl⟩
      · exact .inl rfl
    · cases hdead
  · exact .inl rfl

theorem realises_clear {varargs : List V} {n a b : Nat} {m : Comp (Outcome V σ ε) Y}
    {post : Y → Config V σ → Prop} (ha : a < 256)
    (hi : p.code[c.pc]? = some (encodeAbc .loadNil a b 0))
    (h : ∀ c', c'.pc = c.pc + 1 → c'.world = c.world → Same a c c' →
      Realises (advance P p varargs) n c' m post) :
    Realises (advance P p varargs) n c m post := by
  refine realises_exec hi rfl (h _ rfl rfl ⟨fun r hr => if_neg fun hle => ?_, rfl⟩)
  simp only [encodeAbc, Instruction.a, Nat.mod_eq_of_lt ha] at hle
  exact absurd hle.1 (Nat.not_le.mpr hr)

section Leave

variable (hs : Sited s) (ht : Sited t) (hg : Grown s t)
include hs ht hg

theorem Sited.leaveOpen : Sited { t with fs := t.fs.leaveOpen s.fs.locals } where
  ready := {
    main := ht.ready.main
    env := ht.ready.env
    only := ht.ready.only
    locals := fun l hl => by
      show l.reg < activeVars s.fs.locals
      rw [hs.active]
      exact hs.ready.locals l hl
    free := Nat.le_refl _
    active := by
      show activeVars s.fs.locals ≤ t.fs.maxstack
      rw [hs.active]
      exact hs.ready.active.trans hg.maxstack }
  uncaptured := hs.uncaptured
  sorted := hs.sorted
  active := rfl
  gotos := ht.gotos
  breaks := ht.breaks

omit ht in
theorem Grown.leaveOpen : Grown s { t with fs := t.fs.leaveOpen s.fs.locals } where
  code := hg.code
  constants := hg.constants
  maxstack := hg.maxstack
  nactvar := Nat.le_of_eq hs.active.symm
  locals := ⟨[], (List.append_nil _).symm, by simp⟩
  breaks := hg.breaks

end Leave

def inScope (ev : Nat → Env V → Eval V σ ε (Flow × Env V)) (fuel : Nat) (ρ : Env V) :
    Eval V σ ε (Flow × Env V) := do
  let r ← ev fuel ρ
  return (r.1, r.2.take ρ.depth)

theorem Holds.depth {fs : FuncState α} (h : Holds fs ρ c) : ρ.depth = fs.locals.length := by
  rw [Env.depth, ← h.scope, List.length_map]

theorem Holds.same_first {fs : FuncState α} {floor : Nat} (hs : Sited s) (h : Holds s.fs ρ c)
    (hlocals : fs.locals = s.fs.locals) (hfloor : s.fs.nactvar ≤ floor)
    (hsame : Same floor c c') : Holds fs ρ c' :=
  h.same hlocals (fun l hl => Nat.lt_of_lt_of_le (hs.ready.locals l hl) hfloor) hsame

theorem Ran.same {c'' : Config V σ} {floor : Nat} {fs : FuncState α} (hs : Sited s)
    (h : Ran s s.fs ρ c ρ' c') (hlocals : fs.locals = s.fs.locals)
    (hfloor : s.fs.nactvar ≤ floor) (hsame : Same floor c' c'') : Ran s fs ρ c ρ' c'' where
  holds := h.holds.same_first hs hlocals hfloor hsame
  varargs := h.varargs
  hidden r hr hhidden :=
    (hsame.regs r (Nat.lt_of_lt_of_le hr hfloor)).trans (h.hidden r hr hhidden)

/-- The end of a block: its code clears registers of its locals, or there is none. -/
structure Left (P : Primitives V σ ε) (s t u : LowerState α) : Prop where
  grown : Grown s u
  sited : Sited u
  breakList : u.fs.breakList = t.fs.breakList
  locals : u.fs.locals = s.fs.locals
  pc : t.fs.pc ≤ u.fs.pc
  covers : ∀ p, Covers p u.fs → Covers p t.fs
  follows : ∀ p lo exit, Follows p u.fs lo u.fs.pc exit → Follows p t.fs lo t.fs.pc exit
  runs : ∀ p exit, Small p → Covers p u.fs → Follows p u.fs t.fs.pc u.fs.pc exit →
    ∀ (varargs : List V) n c, c.pc = t.fs.pc →
      ∀ (Y : Type) (m : Eval V σ ε Y) (post : Y × σ → Config V σ → Prop),
        (∀ c', c'.pc = u.fs.pc → Same s.fs.nactvar c c' →
          Realises (advance P p varargs) n c' (m c'.world) post) →
        Realises (advance P p varargs) n c (m c.world) post

theorem leaveBlock_ok (hs : Sited s) (ht : Sited t) (hg : Grown s t) :
    Left P s t { t with fs := t.fs.leaveBlock s.fs.locals.length true } := by
  have hdead (l : Local) (hl : l ∈ t.fs.locals.drop s.fs.locals.length) :
      s.fs.nactvar ≤ l.reg ∧ l.reg < t.fs.maxstack := by
    obtain ⟨more, hmore, hreg⟩ := hg.locals
    have hmem := List.mem_of_mem_drop hl
    rw [hmore, List.drop_left] at hl
    exact ⟨hreg l hl, Nat.lt_of_lt_of_le (ht.ready.locals l hmem) ht.ready.active⟩
  rw [leaveBlock_uncaptured ht.uncaptured, if_pos rfl, hg.take_locals]
  obtain hclear | ⟨l, hl, n, hclear⟩ :=
    clearDead_cases t.fs (t.fs.locals.drop s.fs.locals.length)
  · rw [hclear]
    refine ⟨hg.leaveOpen hs, hs.leaveOpen ht hg, rfl, rfl, Nat.le_refl _,
      fun p h => ⟨h.constants, h.maxstack⟩, fun p lo exit h => h, ?_⟩
    intro p exit _ _ _ varargs n c hpc Y m post h
    exact h c hpc (.refl _ c)
  · rw [hclear]
    let u : LowerState α := { t with fs := t.fs.emit (encodeAbc .loadNil l.reg n 0) }
    have htu : Extends t u := (Extends.refl t).emit _
    have hgrown : Grown s u := hg.trans htu.onward
    have hsited : Sited u := ht.extends htu ht.ready.free
    refine ⟨hgrown.leaveOpen hs, hs.leaveOpen hsited hgrown, rfl, rfl, htu.pc,
      fun p h => ⟨h.constants, h.maxstack⟩, fun p lo exit h => ?_, ?_⟩
    · have hfollows : Follows p u.fs lo u.fs.pc exit := h
      exact (hfollows.mono (Nat.le_refl _) htu.pc).before htu.onward (Nat.le_refl _)
    · intro p exit hsmall hcovers hfollows varargs n' c hpc Y m post h
      have hcovers' : Covers p t.fs := ⟨hcovers.constants, hcovers.maxstack⟩
      have hfollows' : Follows p u.fs t.fs.pc u.fs.pc exit := hfollows
      have hclear : p.code[t.fs.pc]? = some (encodeAbc .loadNil l.reg n 0) := by
        have hlt : t.fs.pc < u.fs.pc := htu.pc.lt_of_ne (by simp [u])
        rw [hfollows' t.fs.pc (Nat.le_refl _) hlt, if_neg, emit_last rfl]
        intro hmem
        exact absurd (ht.breaks _ hmem) (Nat.lt_irrefl _)
      rw [← hpc] at hclear
      refine realises_clear (hcovers'.lt hsmall (hdead l hl).2) hclear
        fun c₂ hpc₂ hworld hsame => ?_
      rw [← hworld]
      refine h c₂ ?_ (hsame.mono (hdead l hl).1)
      rw [hpc₂, hpc]
      exact (pc_emit t.fs _).symm

theorem Code.leave {inLoop : Bool} {ev : Nat → Env V → Eval V σ ε (Flow × Env V)} (hs : Sited s)
    (h : Code P inLoop s ev t) :
    Code P inLoop s (inScope ev) { t with fs := t.fs.leaveBlock s.fs.locals.length true } := by
  have hleft := leaveBlock_ok (P := P) hs h.sited h.grown
  refine ⟨hleft.grown, hleft.sited, fun hloop => hleft.breakList.trans (h.quiet hloop), ?_⟩
  intro p fuel exit hsmall hcovers hexit hfollows n ρ c hn hpc hholds Y k post hnext hbroke
  rw [inScope, bind_assoc]
  refine h.runs p fuel exit hsmall (hleft.covers p hcovers) hexit
    (hleft.follows p _ exit hfollows) n ρ c hn hpc hholds Y _ post (fun ρ₁ c₁ hpc₁ hran => ?_)
    fun ρ₁ c₁ hpc₁ hran => ?_
  · rw [pure_bind, hholds.depth]
    refine hleft.runs p exit hsmall hcovers (hfollows.mono h.grown.pc (Nat.le_refl _)) ρ.varargs n
      c₁ hpc₁ Y _ post fun c₂ hpc₂ hsame => ?_
    exact hnext _ c₂ hpc₂ ((hran.first h.grown).same hs hleft.locals (Nat.le_refl _) hsame)
  · rw [pure_bind, hholds.depth]
    refine hbroke _ c₁ hpc₁ ?_
    rw [take_take ρ₁ (Grown.refl s)]
    exact hran

/-- Lowering of the statements of a block, among which is no label and no goto. -/
def ExecutesItems (P : Primitives V σ ε) (inLoop : Bool) (names more : List Name)
    (items : List (BlockItem α)) (ev : Nat → Env V → Eval V σ ε (Flow × Env V)) : Prop :=
  ∀ namesHere allowLast entry s, Sited s → s.fs.locals.map Local.name = names →
    Ensures (blockItems namesHere allowLast entry items []) s fun defined t =>
      defined = [] ∧ Code P inLoop s ev t ∧ t.fs.locals.map Local.name = names ++ more

section Items

variable {inLoop : Bool} {names more more' : List Name}
  {ev ev' : Nat → Env V → Eval V σ ε (Flow × Env V)}

theorem executesItems_nil :
    ExecutesItems (α := α) P inLoop names [] [] fun _ ρ => pure (.next, ρ) := by
  intro namesHere allowLast entry s hs hnames
  rw [blockItems, ensures_pure]
  refine ⟨rfl, ⟨.refl s, hs, fun _ => rfl, ?_⟩, by rw [hnames, List.append_nil]⟩
  intro p fuel exit _ _ _ _ n ρ c _ hpc hholds Y k post hnext _
  rw [pure_bind]
  exact hnext ρ c hpc (.refl hholds)

theorem Executes.items {m : Lower α Unit} {items : List (BlockItem α)}
    (h : Executes P inLoop names more m ev)
    (h' : ExecutesItems P inLoop (names ++ more) more' items ev') :
    ExecutesItems P inLoop names (more ++ more') (.stmt m :: items) (andThen ev ev') := by
  intro namesHere allowLast entry s hs hnames
  rw [blockItems, ensures_bind]
  refine (h s hs hnames).mono fun _ t ht => ?_
  refine (h' namesHere allowLast entry t ht.1.sited ht.2).mono fun defined u hu => ?_
  exact ⟨hu.1, ht.1.andThen hu.2.1, by rw [hu.2.2, List.append_assoc]⟩

theorem pendingGotos_nil {fs : FuncState α} (h : fs.pendingGotos = []) :
    { fs with pendingGotos := [] } = fs := by
  rw [← h]

theorem ExecutesItems.block {items : List (BlockItem α)} {allowLast close : Bool}
    (h : ExecutesItems P inLoop names more items ev) (hs : Sited s)
    (hnames : s.fs.locals.map Local.name = names) {Q : Unit → LowerState α → Prop}
    (hQ : ∀ t, Code P inLoop s ev t → t.fs.locals.map Local.name = names ++ more →
      Q () (if close then { t with fs := t.fs.leaveBlock s.fs.locals.length true } else t)) :
    Ensures (lowerBlock allowLast close items) s Q := by
  simp only [lowerBlock, ensures_bind, ensures_getFs]
  refine (h _ allowLast _ s hs hnames).mono ?_
  rintro _ t ⟨rfl, ht, hnames'⟩
  have hgotos := ht.sited.gotos
  have hgoal := hQ t ht hnames'
  simp only [hgotos, List.drop_nil, patchHere, ensures_pure, ensures_modifyFs, List.take_nil,
    List.append_nil, pendingGotos_nil hgotos, restoreLabels]
  cases close with
  | true =>
      rw [if_pos rfl] at hgoal ⊢
      rw [ensures_modifyFs]
      exact hgoal
  | false =>
      rw [if_neg Bool.false_ne_true] at hgoal ⊢
      exact ensures_pure.mpr hgoal

theorem ExecutesItems.closed {items : List (BlockItem α)} {allowLast : Bool}
    (h : ExecutesItems P inLoop names more items ev) :
    Executes P inLoop names [] (lowerBlock allowLast true items) (inScope ev) := by
  intro s hs hnames
  refine h.block hs hnames fun t ht _ => ?_
  refine ⟨ht.leave hs, ?_⟩
  rw [if_pos rfl, List.append_nil, ← hnames, leaveBlock_uncaptured ht.sited.uncaptured,
    ht.grown.take_locals]
  rfl

end Items

end Runs

end Luatier.Lowering
