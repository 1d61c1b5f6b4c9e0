import Luatier.Frontend.JumpMeaning

/-!
# The code of branches and loops

The jumps of an `if` wait for its end, and the breaks of a loop for the end of the
loop.
-/

namespace Luatier.Lowering

open Realising

variable {α V σ ε X Y Z : Type}

section Waiting

variable {p : Proto α} {s t u : LowerState α} {fs : FuncState α} {lo hi exit j dest : Nat}
  {js : List Nat}

theorem Follows.le_length (h : Follows p fs lo hi exit) (hlo : lo < hi) (hhi : hi ≤ fs.pc) :
    hi ≤ p.code.length := by
  have hlast := h (hi - 1) (by omega) (by omega)
  have hlt : hi - 1 < fs.code.length := Nat.lt_of_lt_of_le (by omega) hhi
  rw [List.getElem?_eq_getElem hlt] at hlast
  have hsome : p.code[hi - 1]?.isSome := by
    rw [hlast]
    split <;> rfl
  have := (List.getElem?_eq_some_iff.mp (Option.isSome_iff_exists.mp hsome).choose_spec).1
  omega

theorem Grown.not_break (hg : Grown s t) (hj : j < s.fs.pc) (hfresh : j ∉ s.fs.breakList) :
    j ∉ t.fs.breakList := by
  obtain ⟨more, hmore, hjump⟩ := hg.breaks
  rw [hmore, List.mem_append]
  rintro (hmem | hmem)
  · exact hfresh hmem
  · exact absurd hj (Nat.not_lt.mpr (hjump j hmem).1)

theorem Sited.not_break (hs : Sited s) (hj : s.fs.pc ≤ j) : j ∉ s.fs.breakList :=
  fun hmem => absurd (hs.breaks j hmem) (Nat.not_lt.mpr hj)

theorem foldl_fixSbx_breakList :
    (js.foldl (·.fixSbx · dest) fs).breakList = fs.breakList := by
  rw [foldl_fixSbx_eq]

theorem Follows.unfixedAll
    (hjump : ∀ j ∈ js, fs.code[j]? = some (encodeAsbx .jmp 0 0))
    (h : Follows p (js.foldl (·.fixSbx · dest) fs) lo hi exit)
    (hjs : ∀ j ∈ js, hi ≤ j ∨ j < lo) : Follows p fs lo hi exit := by
  intro i hi₁ hi₂
  have hmem : i ∉ js := fun hmem => by
    have := hjs i hmem
    omega
  rw [h i hi₁ hi₂, foldl_fixSbx_breakList, foldl_fixSbx_code _ _ fun j hj => ⟨0, hjump j hj⟩,
    if_neg hmem]

theorem Follows.fixedAll
    (hjump : ∀ j ∈ js, fs.code[j]? = some (encodeAsbx .jmp 0 0))
    (h : Follows p (js.foldl (·.fixSbx · dest) fs) lo hi exit) (hj : j ∈ js) (hlo : lo ≤ j)
    (hhi : j < hi) (hfresh : j ∉ fs.breakList) :
    p.code[j]? = some (encodeAsbx .jmp 0 ((dest : Int) - (j + 1))) := by
  rw [h.unbroken hlo hhi (by rwa [foldl_fixSbx_breakList]),
    foldl_fixSbx_code _ _ fun j hj => ⟨0, hjump j hj⟩, if_pos hj]

theorem Follows.fixedTail
    (hjump : ∀ i ∈ j :: js, fs.code[i]? = some (encodeAsbx .jmp 0 0))
    (h : Follows p ((j :: js).foldl (·.fixSbx · dest) fs) lo hi exit) (hlo : j < lo) :
    Follows p (js.foldl (·.fixSbx · dest) fs) lo hi exit := by
  intro i hi₁ hi₂
  have hjump' : ∀ i ∈ js, ∃ k, fs.code[i]? = some (encodeAsbx .jmp 0 k) :=
    fun i hi => ⟨0, hjump i (List.mem_cons_of_mem j hi)⟩
  have hmem : i ∈ j :: js ↔ i ∈ js := by
    rw [List.mem_cons]
    exact or_iff_right (by omega)
  rw [h i hi₁ hi₂, foldl_fixSbx_breakList, foldl_fixSbx_breakList,
    foldl_fixSbx_code _ _ fun i hi => ⟨0, hjump i hi⟩, foldl_fixSbx_code _ _ hjump']
  simp only [hmem]

theorem Follows.beforeAll (hjump : ∀ j ∈ js, t.fs.code[j]? = some (encodeAsbx .jmp 0 0))
    (hg : Grown t u) (h : Follows p (js.foldl (·.fixSbx · dest) u.fs) lo hi exit)
    (hhi : hi ≤ t.fs.pc) : Follows p (js.foldl (·.fixSbx · dest) t.fs) lo hi exit := by
  intro i hi₁ hi₂
  have hlt : i < t.fs.pc := Nat.lt_of_lt_of_le hi₂ hhi
  have hjump' : ∀ j ∈ js, ∃ k, u.fs.code[j]? = some (encodeAsbx .jmp 0 k) := by
    intro j hj
    refine ⟨0, ?_⟩
    rw [getElem?_grown hg.code (List.getElem?_eq_some_iff.mp (hjump j hj)).1, hjump j hj]
  obtain ⟨more, hmore, hnew⟩ := hg.breaks
  have hmem : i ∈ u.fs.breakList ↔ i ∈ t.fs.breakList := by
    rw [hmore, List.mem_append]
    exact or_iff_left fun hi => absurd (hnew i hi).1 (Nat.not_le.mpr hlt)
  rw [h i hi₁ hi₂, foldl_fixSbx_breakList, foldl_fixSbx_breakList,
    foldl_fixSbx_code _ _ hjump', foldl_fixSbx_code _ _ fun j hj => ⟨0, hjump j hj⟩,
    getElem?_grown hg.code hlt]
  simp only [hmem]

end Waiting

section Loops

variable {P : Primitives V σ ε} {p : Proto α} {s t u : LowerState α} {inLoop : Bool}
  {names : List Name} {ρ ρ' : Env V} {c c' c'' : Config V σ} {fs fs' : FuncState α}

theorem Ran.within (h : Ran s fs ρ c ρ' c') (hlocals : fs'.locals = fs.locals) :
    Ran s fs' ρ c ρ' c' :=
  ⟨⟨by rw [hlocals]; exact h.holds.scope, h.holds.env⟩, h.varargs, h.hidden⟩

theorem Ran.moved (h : Ran s fs ρ c ρ' c') (pc : Nat) : Ran s fs ρ c ρ' { c' with pc } :=
  ⟨⟨h.holds.scope, h.holds.env⟩, h.varargs, h.hidden⟩

theorem Ran.after {floor : Nat} (hs : Sited s) (hg : Grown s t)
    (hlocals : t.fs.locals = s.fs.locals) (hfloor : s.fs.nactvar ≤ floor)
    (hholds : Holds s.fs ρ c) (hsame : Same floor c c')
    (h : Ran t fs ρ c' ρ' c'') : Ran s fs ρ c ρ' c'' :=
  Ran.trans hg ((Ran.refl hholds).same hs hlocals hfloor hsame) h

/-! ## Branches -/

/-- What has been lowered for the branches of an `if`; the jumps from their ends wait. -/
structure BranchesCode (P : Primitives V σ ε) (inLoop : Bool) (s : LowerState α)
    (branches : List Branch) (escape : List Nat) (t : LowerState α) : Prop where
  grown : Grown s t
  sited : Sited t
  locals : t.fs.locals = s.fs.locals
  quiet : inLoop = false → t.fs.breakList = s.fs.breakList
  place : ∀ j ∈ escape, s.fs.pc ≤ j ∧ j < t.fs.pc ∧ j ∉ t.fs.breakList
  jump : ∀ j ∈ escape, t.fs.code[j]? = some (encodeAsbx .jmp 0 0)
  runs : ∀ p fuel exit done, Small p → Covers p t.fs → exit ≤ p.code.length →
    (escape ≠ [] → done ≤ p.code.length) →
    Follows p (escape.foldl (·.fixSbx · done) t.fs) s.fs.pc t.fs.pc exit →
    ∀ n ρ c orElse, n ≤ fuel → c.pc = s.fs.pc → Holds s.fs ρ c →
      ∀ (Y : Type) (k : Flow × Env V → Eval V σ ε Y) (post : Y × σ → Config V σ → Prop),
        (∀ c', c'.pc = t.fs.pc → Ran s s.fs ρ c ρ c' →
          Realises (advance P p ρ.varargs) n c' ((orElse ρ >>= k) c'.world) post) →
        (∀ ρ' c', c'.pc = done → Ran s s.fs ρ c ρ' c' →
          Realises (advance P p ρ.varargs) n c' (k (.next, ρ') c'.world) post) →
        (∀ ρ' c', c'.pc = exit → Ran s s.fs ρ c (ρ'.take s.fs.locals.length) c' →
          Realises (advance P p ρ.varargs) n c' (k (.broke, ρ') c'.world) post) →
        Realises (advance P p ρ.varargs) n c
          ((execBranches P fuel branches orElse ρ >>= k) c.world) post

theorem branches_ok : ∀ (branches : List Branch) (s : LowerState α),
    (∀ cond body, Branch.mk cond body ∈ branches → (∀ ρ : Env V, Correct α P ρ names cond) ∧
      Executes (α := α) P inLoop names [] (block true true body) (execBlock P · body)) →
    Sited s → s.fs.locals.map Local.name = names →
    Ensures (lowerBranches (branchItems branches)) s fun escape t =>
      BranchesCode P inLoop s branches escape t
  | [], s, _, hs, _ => by
      rw [branchItems, lowerBranches, ensures_pure]
      refine ⟨.refl s, hs, rfl, fun _ => rfl, by simp, by simp, ?_⟩
      intro p fuel exit done _ _ _ _ _ n ρ c orElse _ hpc hholds Y k post helse _ _
      rw [execBranches]
      exact helse c hpc (.refl hholds)
  | .mk cond body :: branches, s, hall, hs, hnames => by
      obtain ⟨hcond, hbody⟩ := hall cond body List.mem_cons_self
      simp only [branchItems, lowerBranches, freeToActive, ensures_bind, ensures_modifyFs,
        ensures_codeAsbx, ensures_fixSbx, ensures_getFs, ensures_pure]
      refine (Ensures.all fun ρ => testJump_ok (hcond ρ).value true hs.ready hnames).mono
        fun jf t ht => ?_
      obtain ⟨hgrown₁, hfree₁, hstart, hlast, hjump, -⟩ := ht ⟨[], P.nil, []⟩
      let t₁ : LowerState α := { t with fs := t.fs.setFreereg t.fs.nactvar }
      have hgrown₂ : Extends s t₁ := hgrown₁.setFreereg _
      have hsited₁ : Sited t₁ := hs.extends hgrown₂ (Nat.le_of_eq hgrown₁.nactvar.symm)
      refine (hbody t₁ hsited₁ (by rw [hgrown₂.locals, hnames])).mono fun _ b hb => ?_
      obtain ⟨hb, hnames'⟩ := hb
      have hlocals : b.fs.locals = t₁.fs.locals :=
        hb.grown.locals_eq (by rw [hnames', List.append_nil, hgrown₂.locals, hnames])
      let b₁ : LowerState α := { b with fs := b.fs.emit (encodeAsbx .jmp 0 0) }
      have hemit : Extends b b₁ := (Extends.refl b).emit _
      have hpcb : b₁.fs.pc = b.fs.pc + 1 := pc_emit b.fs _
      have hjf : jf < t₁.fs.pc := by
        show jf < t.fs.pc
        omega
      have hfresh : jf ∉ b₁.fs.breakList :=
        (hb.grown.trans hemit.onward).not_break hjf (by
          rw [hgrown₂.breakList]
          exact hs.not_break hstart)
      let b₂ : LowerState α := { b₁ with fs := b₁.fs.fixSbx jf b₁.fs.pc }
      have hgrown₃ : Grown t₁ b₁ := hb.grown.trans hemit.onward
      have hgrown₄ : Grown s b₂ := (hgrown₂.onward.trans hgrown₃).fixSbx hstart hfresh _
      have hsited₂ : Sited b₂ := (hb.sited.extends hemit hb.sited.ready.free).fixSbx jf _
      have hlocals₂ : b₂.fs.locals = s.fs.locals := hlocals.trans hgrown₂.locals
      have hpc₂ : b₂.fs.pc = b.fs.pc + 1 := (fixSbx_pc _ _ _).trans hpcb
      refine (branches_ok branches b₂ (fun cond body h => hall cond body (List.mem_cons_of_mem _ h))
        hsited₂ (by rw [hlocals₂, hnames])).mono fun escape r hr => ?_
      have hje : b.fs.pc ∉ r.fs.breakList :=
        hr.grown.not_break (by omega) (hb.sited.not_break (Nat.le_refl _))
      have hjlt : jf < b.fs.pc := Nat.lt_of_lt_of_le hjf hb.grown.pc
      have hcode : r.fs.code[b.fs.pc]? = some (encodeAsbx .jmp 0 0) := by
        rw [getElem?_grown hr.grown.code (by
          show b.fs.pc < b₂.fs.pc
          omega)]
        show (b₁.fs.fixSbx jf b₁.fs.pc).code[b.fs.pc]? = _
        rw [fixSbx_of_ne (Nat.ne_of_gt hjlt)]
        exact emit_last rfl
      have hjumps : ∀ j ∈ b.fs.pc :: escape, r.fs.code[j]? = some (encodeAsbx .jmp 0 0) := by
        intro j hj
        rcases List.mem_cons.mp hj with rfl | hj
        · exact hcode
        · exact hr.jump j hj
      have hsb : s.fs.pc ≤ b.fs.pc := (hgrown₂.onward.trans hb.grown).pc
      refine ⟨hgrown₄.trans hr.grown, hr.sited, hr.locals.trans hlocals₂, fun hloop => ?_, ?_,
        hjumps, ?_⟩
      · exact (hr.quiet hloop).trans ((hb.quiet hloop).trans hgrown₂.breakList)
      · intro j hj
        have := hr.grown.pc
        rcases List.mem_cons.mp hj with rfl | hj
        · exact ⟨hsb, by omega, hje⟩
        · have := hr.place j hj
          exact ⟨by omega, this.2.1, this.2.2⟩
      · intro p fuel exit done hsmall hcovers hexit hdone hfollows n ρ c orElse hn hpc hholds Y k
          post helse hnext hbroke
        have hrpc := hr.grown.pc
        -- the parts of the code, each as it was before its jumps were patched
        have hfirst : Follows p b₂.fs s.fs.pc b.fs.pc exit := by
          refine Follows.before (t := r) ?_ hr.grown (by omega)
          refine (hfollows.mono (Nat.le_refl _) (by omega)).unfixedAll hjumps fun j hj => ?_
          rcases List.mem_cons.mp hj with rfl | hj
          · exact .inl (Nat.le_refl _)
          · have := (hr.place j hj).1
            omega
        have hback : p.code[b.fs.pc]? = some (encodeAsbx .jmp 0 ((done : Int) - (b.fs.pc + 1))) :=
          hfollows.fixedAll hjumps List.mem_cons_self hsb (by omega) hje
        have hrest : Follows p (escape.foldl (·.fixSbx · done) r.fs) b₂.fs.pc r.fs.pc exit :=
          (hfollows.mono (by omega) (Nat.le_refl _)).fixedTail hjumps (by omega)
        have hfail : p.code[jf]? = some (encodeAsbx .jmp 0 ((b₂.fs.pc : Int) - (jf + 1))) := by
          have hfixed := hfirst.fixed hstart hjlt hfresh (by decide)
            ((getElem?_grown hgrown₃.code hjf).trans hjump)
          rwa [hpc₂, ← hpcb]
        have hbefore : Follows p t₁.fs s.fs.pc jf exit :=
          ((hfirst.mono (Nat.le_refl _) (Nat.le_of_lt hjlt)).unfixed
            (.inl (Nat.le_refl _))).before hgrown₃ (Nat.le_of_lt hjf)
        have htest : Agree p t.fs s.fs.pc jf :=
          Follows.agree (t := t) hbefore hs hgrown₁.breakList (Nat.le_refl _)
        have hinside : Follows p b.fs t₁.fs.pc b.fs.pc exit :=
          ((hfirst.mono (hgrown₂.pc) (Nat.le_refl _)).unfixed (.inr hjf)).before hemit.onward
            (Nat.le_refl _)
        have hcovers₂ : Covers p b₂.fs := hcovers.onward hr.grown
        have hcoversb : Covers p b.fs := ⟨hcovers₂.constants, hcovers₂.maxstack⟩
        have hcoverst₁ : Covers p t₁.fs := hcoversb.onward hb.grown
        have hcoverst : Covers p t.fs := ⟨hcoverst₁.constants, hcoverst₁.maxstack⟩
        rw [execBranches, bind_assoc, evalTest]
        refine (ht ρ).tests p b₂.fs.pc hsmall hcoverst htest ?_ hfail n c hpc hholds Y _ post
          fun truth c₁ hpc₁ hsame => ?_
        · have := (List.getElem?_eq_some_iff.mp hback).1
          omega
        have hafter {fs : FuncState α} {ρ' : Env V} {c' : Config V σ}
            (h : Ran t₁ fs ρ c₁ ρ' c') : Ran s fs ρ c ρ' c' :=
          Ran.after hs hgrown₂.onward hgrown₂.locals hs.ready.free hholds hsame h
        have hholds₁ : Holds s.fs ρ c₁ :=
          hholds.same_first hs rfl hs.ready.free hsame
        cases truth with
        | true =>
            rw [if_pos rfl] at hpc₁
            rw [if_pos rfl]
            refine hb.runs p fuel exit hsmall hcoversb hexit hinside n ρ c₁ hn hpc₁
              ⟨by rw [hgrown₂.locals]; exact hholds₁.scope, hholds₁.env⟩ Y k post
              (fun ρ₂ c₂ hpc₂' hran => ?_) fun ρ₂ c₂ hpc₂' hran => ?_
            · rw [← hpc₂'] at hback
              refine realises_jump hsmall hback (hdone (List.cons_ne_nil _ _)) ?_
              exact hnext ρ₂ { c₂ with pc := done } rfl
                (((hafter hran).within (hlocals.trans hgrown₂.locals).symm).moved done)
            · refine hbroke ρ₂ c₂ hpc₂' ?_
              have hran' : Ran s s.fs ρ c _ c₂ := (hafter hran).within hgrown₂.locals.symm
              rwa [hgrown₂.locals] at hran'
        | false =>
            rw [if_neg Bool.false_ne_true] at hpc₁
            rw [if_neg Bool.false_ne_true]
            have hafter' {fs : FuncState α} {ρ' : Env V} {c' : Config V σ}
                (h : Ran b₂ fs ρ c₁ ρ' c') : Ran s fs ρ c ρ' c' :=
              Ran.after hs hgrown₄ hlocals₂ hs.ready.free hholds hsame h
            refine hr.runs p fuel exit done hsmall hcovers hexit
              (fun _ => hdone (List.cons_ne_nil _ _)) hrest n ρ c₁ orElse hn hpc₁
              ⟨by rw [hlocals₂]; exact hholds₁.scope, hholds₁.env⟩ Y k post
              (fun c₂ hpc₂' hran => ?_) (fun ρ₂ c₂ hpc₂' hran => ?_) fun ρ₂ c₂ hpc₂' hran => ?_
            · exact helse c₂ hpc₂' ((hafter' hran).within hlocals₂.symm)
            · exact hnext ρ₂ c₂ hpc₂' ((hafter' hran).within hlocals₂.symm)
            · refine hbroke ρ₂ c₂ hpc₂' ?_
              have hran' : Ran s s.fs ρ c _ c₂ := (hafter' hran).within hlocals₂.symm
              rwa [hlocals₂] at hran'

theorem executes_ifs {branches : List Branch} {elseBody : Option (Lower α Unit)}
    {evElse : Nat → Env V → Eval V σ ε (Flow × Env V)}
    (hall : ∀ cond body, Branch.mk cond body ∈ branches →
      (∀ ρ : Env V, Correct α P ρ names cond) ∧
        Executes (α := α) P inLoop names [] (block true true body) (execBlock P · body))
    (helse : Executes P inLoop names [] (elseBody.getD (pure ())) evElse) :
    Executes (α := α) P inLoop names [] (lowerIf (branchItems branches) elseBody)
      fun fuel => execBranches P fuel branches (evElse fuel) := by
  intro s hs hnames
  have hshape : (lowerIf (branchItems branches) elseBody : Lower α Unit) = (do
      let escape ← lowerBranches (branchItems branches)
      elseBody.getD (pure ())
      fixAll escape (← getFs).pc) := by
    cases elseBody <;> rfl
  rw [hshape]
  simp only [ensures_bind, ensures_getFs, ensures_fixAll]
  refine (branches_ok branches s hall hs hnames).mono fun escape t ht => ?_
  refine (helse t ht.sited (by rw [ht.locals, hnames])).mono fun _ e he => ?_
  obtain ⟨he, hnames'⟩ := he
  have hlocals : e.fs.locals = t.fs.locals :=
    he.grown.locals_eq (by rw [hnames', List.append_nil, ht.locals, hnames])
  have hgrown : Grown s e := ht.grown.trans he.grown
  have hplace : ∀ j ∈ escape, s.fs.pc ≤ j ∧ j ∉ e.fs.breakList := fun j hj =>
    ⟨(ht.place j hj).1, he.grown.not_break (ht.place j hj).2.1 (ht.place j hj).2.2⟩
  obtain ⟨hgrown', hsited'⟩ := Grown.fixAll e.fs.pc escape e hgrown he.sited hplace
  have hlocals' : (escape.foldl (·.fixSbx · e.fs.pc) e.fs).locals = s.fs.locals := by
    rw [foldl_fixSbx_eq]
    exact hlocals.trans ht.locals
  have hpc' : (escape.foldl (·.fixSbx · e.fs.pc) e.fs).pc = e.fs.pc := foldl_fixSbx_pc _ _
  refine ⟨⟨hgrown', hsited', fun hloop => ?_, ?_⟩, ?_⟩
  · rw [foldl_fixSbx_breakList, he.quiet hloop, ht.quiet hloop]
  · intro p fuel exit hsmall hcovers hexit hfollows n ρ c hn hpc hholds Y k post hnext hbroke
    have hcovers' : Covers p e.fs := by
      rw [foldl_fixSbx_eq] at hcovers
      exact ⟨hcovers.constants, hcovers.maxstack⟩
    have hle : e.fs.pc ≤ (escape.foldl (·.fixSbx · e.fs.pc) e.fs).pc := Nat.le_of_eq hpc'.symm
    have htpc := he.grown.pc
    have hjump : ∀ j ∈ escape, e.fs.code[j]? = some (encodeAsbx .jmp 0 0) := fun j hj => by
      rw [getElem?_grown he.grown.code (List.getElem?_eq_some_iff.mp (ht.jump j hj)).1,
        ht.jump j hj]
    have hbranches := (hfollows.mono (Nat.le_refl _) (htpc.trans hle)).beforeAll ht.jump he.grown
      (Nat.le_refl _)
    have helse' : Follows p e.fs t.fs.pc e.fs.pc exit :=
      (hfollows.mono ht.grown.pc hle).unfixedAll hjump fun j hj => .inr (ht.place j hj).2.1
    have hdone (hne : escape ≠ []) : e.fs.pc ≤ p.code.length := by
      obtain ⟨j, hj⟩ := List.exists_mem_of_ne_nil _ hne
      have := ht.place j hj
      exact (hfollows.mono (Nat.le_refl _) hle).le_length (by omega) hle
    have hwithin {ρ' : Env V} {c' : Config V σ} (h : Ran s s.fs ρ c ρ' c') :
        Ran s (escape.foldl (·.fixSbx · e.fs.pc) e.fs) ρ c ρ' c' := h.within hlocals'
    refine ht.runs p fuel exit e.fs.pc hsmall (hcovers'.onward he.grown) hexit hdone hbranches n ρ c
      (evElse fuel) hn hpc hholds Y k post (fun c₁ hpc₁ hran => ?_)
      (fun ρ₁ c₁ hpc₁ hran => hnext ρ₁ c₁ (hpc₁.trans hpc'.symm) (hwithin hran)) hbroke
    have hrant : Ran s t.fs ρ c ρ c₁ := hran.within ht.locals
    refine he.runs p fuel exit hsmall hcovers' hexit helse' n ρ c₁ hn hpc₁ hrant.holds Y k post
      (fun ρ₂ c₂ hpc₂ hran₂ => ?_) fun ρ₂ c₂ hpc₂ hran₂ => ?_
    · refine hnext ρ₂ c₂ (hpc₂.trans hpc'.symm) (hwithin ?_)
      exact (Ran.trans ht.grown hrant hran₂).within (hlocals.trans ht.locals).symm
    · refine hbroke ρ₂ c₂ hpc₂ ?_
      have hran' : Ran s s.fs ρ c _ c₂ := (Ran.trans ht.grown hrant hran₂).within ht.locals.symm
      rwa [ht.locals] at hran'
  · rw [List.append_nil, ← hnames]
    exact congrArg (List.map Local.name) hlocals'

/-! ## Loops -/

theorem advance_jump {varargs : List V} {a dest : Nat} (hsmall : Small p)
    (hi : p.code[c.pc]? = some (encodeAsbx .jmp a ((dest : Int) - (c.pc + 1))))
    (hdest : dest ≤ p.code.length) :
    advance P p varargs c = .ok { c with pc := dest } := by
  have hpc : c.pc + 1 ≤ p.code.length := (List.getElem?_eq_some_iff.mp hi).1
  have hfits : Fits ((dest : Int) - (c.pc + 1)) := hsmall.fits hpc hdest
  have hsbx := (sbx_encodeAsbx_iff (α := α) .jmp a _).mpr hfits
  have heq : (((c.pc + 1 : Nat) : Int) + ((dest : Int) - (c.pc + 1))).toNat = dest := by omega
  rw [advance, hi]
  simp only [exec, op_encodeAsbx, hsbx, Config.jump, heq]

theorem realises_rounds {round : X → Eval V σ ε (Z ⊕ X)} {varargs : List V} {limit : Nat}
    (start : X → Config V σ → Prop) (stop : Z → Config V σ → Prop)
    (hround : ∀ n x c, n ≤ limit → start x c →
      ∀ (k : Z ⊕ X → Eval V σ ε Y) (post : Y × σ → Config V σ → Prop),
        (∀ z c', stop z c' → Realises (advance P p varargs) n c' (k (.inl z) c'.world) post) →
        (∀ x' c', start x' c' →
          Realises (advance P p varargs) (n - 1) c' (k (.inr x') c'.world) post) →
        Realises (advance P p varargs) n c ((round x >>= k) c.world) post)
    {n : Nat} {x : X} (hn : n ≤ limit) (hstart : start x c) {k : Z → Eval V σ ε Y}
    {post : Y × σ → Config V σ → Prop}
    (hstop : ∀ z c', stop z c' → Realises (advance P p varargs) n c' (k z c'.world) post) :
    Realises (advance P p varargs) n c ((rounds round limit x >>= k) c.world) post :=
  Realises.rounds hround limit n x c hn hn hstart k post hstop

theorem Sited.level (hs : Sited s) (levels : List Nat) :
    Sited { s with fs := { s.fs with loopBreakLevel := levels } } where
  ready := ⟨hs.ready.main, hs.ready.env, hs.ready.only, hs.ready.locals, hs.ready.free,
    hs.ready.active⟩
  uncaptured := hs.uncaptured
  sorted := hs.sorted
  active := hs.active
  gotos := hs.gotos
  breaks := hs.breaks

theorem Grown.level (hg : Grown s t) (levels : List Nat) :
    Grown s { t with fs := { t.fs with loopBreakLevel := levels } } :=
  ⟨hg.code, hg.constants, hg.maxstack, hg.nactvar, hg.locals, hg.breaks⟩

def RunsTo (P : Primitives V σ ε) (p : Proto α) (exit : Nat) (fuel : Nat) (s : LowerState α)
    (ev : Env V → Eval V σ ε (Flow × Env V)) : Prop :=
  ∀ n ρ c, n ≤ fuel → c.pc = s.fs.pc → Holds s.fs ρ c →
    ∀ (Y : Type) (k : Flow × Env V → Eval V σ ε Y) (post : Y × σ → Config V σ → Prop),
      (∀ ρ' c', c'.pc = exit → Ran s s.fs ρ c ρ' c' →
        Realises (advance P p ρ.varargs) n c' (k (.next, ρ') c'.world) post) →
      Realises (advance P p ρ.varargs) n c ((ev ρ >>= k) c.world) post

/-- What has been lowered for a loop whose breaks are still to be patched: they go to its end. -/
structure Looped (P : Primitives V σ ε) (s : LowerState α)
    (ev : Nat → Env V → Eval V σ ε (Flow × Env V)) (u : LowerState α) : Prop where
  grown : Grown s u
  sited : Sited u
  locals : u.fs.locals = s.fs.locals
  runs : ∀ p fuel, Small p → Covers p u.fs → Follows p u.fs s.fs.pc u.fs.pc u.fs.pc →
    RunsTo P p u.fs.pc fuel s (ev fuel)

theorem Looped.fixed {ev : Nat → Env V → Eval V σ ε (Flow × Env V)} {dest : Nat} (hs : Sited s)
    (hnames : s.fs.locals.map Local.name = names) (h : Looped P s ev u)
    (hdest : dest = u.fs.pc) :
    Code P inLoop s ev { u with fs := u.fs.fixBreaks s.fs.breakList.length dest } ∧
      (u.fs.fixBreaks s.fs.breakList.length dest).locals.map Local.name = names ++ [] := by
  have hlocals : (u.fs.fixBreaks s.fs.breakList.length dest).locals = s.fs.locals := by
    rw [fixBreaks_eq]
    exact h.locals
  have hpcu : (u.fs.fixBreaks s.fs.breakList.length dest).pc = u.fs.pc := fixBreaks_pc _ _ _
  refine ⟨⟨h.grown.fixBreaks, Sited.fixBreaks h.grown hs h.sited,
    fun _ => h.grown.fixBreaks_breakList, ?_⟩, ?_⟩
  · intro p fuel exit hsmall hcovers hexit hfollows n ρ c hn hpc hholds Y k post hnext hbroke
    have hcovers' : Covers p u.fs := by
      rw [fixBreaks_eq] at hcovers
      exact ⟨hcovers.constants, hcovers.maxstack⟩
    have hinner : Follows p u.fs s.fs.pc u.fs.pc dest :=
      (Follows.ofFixed h.grown hs hfollows (Nat.le_refl _)).mono (Nat.le_refl _)
        (Nat.le_of_eq hpcu.symm)
    refine h.runs p fuel hsmall hcovers' (hdest ▸ hinner) n ρ c hn hpc hholds Y k post
      fun ρ' c' hpc' hran => ?_
    exact hnext ρ' c' (hpc'.trans hpcu.symm) (hran.within hlocals)
  · rw [List.append_nil, ← hnames]
    exact congrArg (List.map Local.name) hlocals

theorem runs_while {cond : Expr} {body : Block} {fuel clear reg : Nat} (hs : Sited s)
    (hsmall : Small p) (hst : Grown s t) (hlocals : t.fs.locals = s.fs.locals) (htu : Grown t u)
    (htest : ∀ ρ : Env V, Tests P p ρ s.fs.freereg s t clear true (evalTest P cond ρ))
    (hbody : Runs P p fuel (clear + 1) t u (execBlock P fuel body))
    (hback : p.code[u.fs.pc]? = some (encodeAsbx .jmp 0 ((s.fs.pc : Int) - (u.fs.pc + 1))))
    (hclear : p.code[clear]? = some (encodeAbc .loadNil reg 0 0)) (hfloor : s.fs.nactvar ≤ reg)
    (hreg : reg < 256) :
    RunsTo P p (clear + 1) fuel s (execStmt P fuel (.while cond body)) := by
  intro n ρ c hn hpc hholds Y k post hnext
  have hlength : s.fs.pc ≤ p.code.length := by
    have := (hst.trans htu).pc
    have := (List.getElem?_eq_some_iff.mp hback).1
    omega
  rw [execStmt, bind_assoc]
  refine realises_rounds (fun ρ' c' => c'.pc = s.fs.pc ∧ Ran s s.fs ρ c ρ' c')
    (fun ρ' c' => c'.pc = clear + 1 ∧ Ran s s.fs ρ c ρ' c') ?_ hn ⟨hpc, .refl hholds⟩ ?_
  · rintro n ρ₁ c₁ hn₁ ⟨hpc₁, hran₁⟩ k₁ post₁ hstop hagain
    rw [← hran₁.varargs] at hstop hagain ⊢
    rw [whileRound, bind_assoc]
    refine htest ρ₁ n c₁ hpc₁ hran₁.holds Y _ post₁ fun truth c₂ hpc₂ hsame => ?_
    have hran₂ : Ran s t.fs ρ c ρ₁ c₂ := hran₁.same hs hlocals hs.ready.free hsame
    cases truth with
    | true =>
        rw [if_pos rfl] at hpc₂
        rw [if_pos rfl, bind_map_left]
        refine hbody n ρ₁ c₂ hn₁ hpc₂ hran₂.holds Y _ post₁ (fun ρ₃ c₃ hpc₃ hran₃ => ?_)
          fun ρ₃ c₃ hpc₃ hran₃ => ?_
        · rw [← hpc₃] at hback
          refine Realises.back (advance_jump hsmall hback hlength) ?_
          refine hagain (ρ₃.take ρ₁.depth) { c₃ with pc := s.fs.pc } ⟨rfl, ?_⟩
          rw [hran₁.holds.depth]
          exact ((Ran.trans hst hran₂ hran₃).first (hst.trans htu)).moved _
        · refine hstop (ρ₃.take ρ₁.depth) c₃ ⟨hpc₃, ?_⟩
          rw [hran₁.holds.depth]
          have hran : Ran s s.fs ρ c _ c₃ := (Ran.trans hst hran₂ hran₃).within hlocals.symm
          rwa [hlocals] at hran
    | false =>
        rw [if_neg Bool.false_ne_true] at hpc₂
        rw [if_neg Bool.false_ne_true, pure_bind]
        rw [← hpc₂] at hclear
        refine realises_clear hreg hclear fun c₃ hpc₃ hworld hsame₃ => ?_
        rw [← hworld]
        refine hstop ρ₁ c₃ ⟨by rw [hpc₃, hpc₂], ?_⟩
        exact (hran₂.within hlocals.symm).same hs rfl hfloor hsame₃
  · rintro ρ' c' ⟨hpc', hran'⟩
    exact hnext ρ' c' hpc' hran'

theorem executes_while {cond : Expr} {body : Block}
    (hcond : ∀ ρ : Env V, Correct α P ρ names cond)
    (hbody : Executes (α := α) P true names [] (block true true body) (execBlock P · body)) :
    Executes (α := α) P inLoop names [] (lowerWhile (expr cond) (block true true body))
      fun fuel => execStmt P fuel (.while cond body) := by
  intro s hs hnames
  simp only [lowerWhile, Lowering.inLoop, jumpBack, freeToActive, ensures_bind, ensures_getFs,
    ensures_modifyFs, ensures_discard, ensures_codeAsbx, ensures_codeAbc, ensures_newReg,
    ensures_fixSbx]
  refine (Ensures.all fun ρ => testJump_ok (hcond ρ).value true hs.ready hnames).mono
    fun jf t ht => ?_
  obtain ⟨hgrown₁, hfree₁, hstart, hlast, hjump, -⟩ := ht ⟨[], P.nil, []⟩
  let t₁ : LowerState α := { t with fs := t.fs.setFreereg t.fs.nactvar }
  have hgrown₂ : Extends s t₁ := hgrown₁.setFreereg _
  have hsited₁ : Sited t₁ := hs.extends hgrown₂ (Nat.le_of_eq hgrown₁.nactvar.symm)
  have hbefore : t.fs.breakList = s.fs.breakList := hgrown₁.breakList
  let t₂ : LowerState α := { t₁ with fs := { t₁.fs with
    loopBreakLevel := t₁.fs.loopBreakLevel ++ [t₁.fs.nactvar] } }
  have hgrownt : Grown s t₂ := hgrown₂.onward.level _
  have hlocalst : t₂.fs.locals = s.fs.locals := hgrown₂.locals
  have hbreakst : (t.fs.setFreereg t.fs.nactvar).breakList = s.fs.breakList := hbefore
  refine (hbody t₂ (hsited₁.level _) (by rw [hlocalst, hnames])).mono fun _ b hb _ => ?_
  obtain ⟨hb, hnames'⟩ := hb
  have hlocals : b.fs.locals = s.fs.locals := by
    refine (hb.grown.locals_eq ?_).trans hlocalst
    rw [hnames', List.append_nil, hlocalst, hnames]
  rw [hbreakst]
  let b₁ : LowerState α := { b with fs := { b.fs with
    loopBreakLevel := b.fs.loopBreakLevel.dropLast } }
  let b₂ : LowerState α := { b₁ with
    fs := b₁.fs.emit (encodeAsbx .jmp 0 ((s.fs.pc : Int) - (b₁.fs.pc + 1))) }
  let b₄ : LowerState α := { b₂ with
    fs := ((b₂.fs.reserved 1).emit (encodeAbc .loadNil b₂.fs.freereg 0 0)).setFreereg
      b₂.fs.nactvar }
  let b₅ : LowerState α := { b₄ with fs := b₄.fs.fixSbx jf b₂.fs.pc }
  have hextends : Extends b₁ b₄ :=
    ((((Extends.refl b₁).emit _).reserved 1).emit _).setFreereg _
  have hgrownb : Grown b b₄ := ((Grown.refl b).level _).trans hextends.onward
  have hgrown₃ : Grown t₂ b₄ := hb.grown.trans hgrownb
  have hsited₄ : Sited b₄ := (hb.sited.level _).extends hextends (Nat.le_refl _)
  have hjf : jf < t₂.fs.pc := by
    show jf < t.fs.pc
    omega
  have hfresht : jf ∉ t₂.fs.breakList := by
    show jf ∉ (t.fs.setFreereg t.fs.nactvar).breakList
    rw [hbreakst]
    exact hs.not_break hstart
  have hfresh : jf ∉ b₄.fs.breakList := hgrown₃.not_break hjf hfresht
  have hgrown₅ : Grown s b₅ := (hgrownt.trans hgrown₃).fixSbx hstart hfresh _
  have hsited₅ : Sited b₅ := hsited₄.fixSbx jf _
  have hpcb : b₄.fs.pc = b.fs.pc + 2 := by
    show (((b₁.fs.emit _).reserved 1).emit _).pc = _
    rw [pc_emit, pc_reserved, pc_emit]
    rfl
  have hpc₅ : b₅.fs.pc = b₄.fs.pc := fixSbx_pc _ _ _
  have hlooped : Looped P s (fun fuel => execStmt P fuel (.while cond body)) b₅ := by
    refine ⟨hgrown₅, hsited₅, hlocals, ?_⟩
    intro p fuel hsmall hcovers hfollows
    have hspc : s.fs.pc ≤ t₂.fs.pc := hgrownt.pc
    have htpc : t₂.fs.pc ≤ b.fs.pc := hb.grown.pc
    -- the breaks of the body go to the end of the loop
    have hinner : Follows p b₅.fs s.fs.pc b₄.fs.pc b₄.fs.pc := hpc₅ ▸ hfollows
    have hend : b₄.fs.pc ≤ p.code.length :=
      hinner.le_length (by omega) (Nat.le_of_eq hpc₅.symm)
    have hbehind : Follows p b₄.fs (jf + 1) b₄.fs.pc b₄.fs.pc :=
      (hinner.mono (by omega) (Nat.le_refl _)).unfixed (.inr (Nat.lt_succ_self jf))
    have hinside : Follows p b.fs t₂.fs.pc b.fs.pc b₄.fs.pc :=
      (hbehind.mono hjf (by omega)).before hgrownb (Nat.le_refl _)
    have hemit : Extends b₂ b₄ := (((Extends.refl b₂).reserved 1).emit _).setFreereg _
    have hback : p.code[b.fs.pc]? = some (encodeAsbx .jmp 0 ((s.fs.pc : Int) - (b.fs.pc + 1))) := by
      rw [hbehind.unbroken (by omega) (by omega) (hb.sited.not_break (Nat.le_refl _)),
        getElem?_grown hemit.code (by
          show b.fs.pc < b₂.fs.pc
          rw [pc_emit]
          exact Nat.lt_succ_self _)]
      exact emit_last rfl
    have hb₂ : b₂.fs.pc = b.fs.pc + 1 := pc_emit _ _
    have hclear : p.code[b₂.fs.pc]? = some (encodeAbc .loadNil b₂.fs.freereg 0 0) := by
      rw [hbehind.unbroken (by omega) (by omega) (hb.sited.not_break (by omega))]
      exact emit_last rfl
    have hfail : p.code[jf]? = some (encodeAsbx .jmp 0 ((b₂.fs.pc : Int) - (jf + 1))) :=
      hinner.fixed hstart (by omega) hfresh (by decide)
        ((getElem?_grown hgrown₃.code hjf).trans hjump)
    have hahead : Follows p t₂.fs s.fs.pc jf b₄.fs.pc :=
      ((hinner.mono (Nat.le_refl _) (by omega)).unfixed (.inl (Nat.le_refl _))).before hgrown₃
        (Nat.le_of_lt hjf)
    have htest : Agree p t.fs s.fs.pc jf :=
      Follows.agree (t := t) hahead hs hgrown₁.breakList (Nat.le_refl _)
    have hcovers₄ : Covers p b₄.fs := ⟨hcovers.constants, hcovers.maxstack⟩
    have hcoversb : Covers p b.fs := hcovers₄.onward hgrownb
    have hcoverst : Covers p t.fs := by
      have := hcoversb.onward hb.grown
      exact ⟨this.constants, this.maxstack⟩
    have hfloor : s.fs.nactvar ≤ b₂.fs.freereg :=
      (hgrownt.trans hb.grown).nactvar.trans hb.sited.ready.free
    have hreg : b₂.fs.freereg < 256 := hcovers₄.lt hsmall (by
      show b.fs.freereg < max b.fs.maxstack (b.fs.freereg + 1)
      omega)
    have hexit : b₂.fs.pc + 1 = b₄.fs.pc := by omega
    rw [hpc₅, ← hexit]
    refine runs_while (t := t₂) hs hsmall hgrownt hlocalst hb.grown
      (fun ρ => (ht ρ).tests p b₂.fs.pc hsmall hcoverst htest (by omega) hfail) ?_ hback hclear
      hfloor hreg
    rw [hexit]
    exact hb.runs p fuel b₄.fs.pc hsmall hcoversb hend hinside
  exact hlooped.fixed hs hnames hpc₅.symm

theorem Runs.unlevel {fuel exit : Nat} {levels : List Nat}
    {ev : Env V → Eval V σ ε (Flow × Env V)}
    (h : Runs P p fuel exit { s with fs := { s.fs with loopBreakLevel := levels } } t ev) :
    Runs P p fuel exit s t ev := by
  intro n ρ c hn hpc hholds Y k post hnext hbroke
  refine h n ρ c hn hpc ⟨hholds.scope, hholds.env⟩ Y k post
    (fun ρ' c' hpc' hran => ?_) fun ρ' c' hpc' hran => ?_
  · exact hnext ρ' c' hpc' ⟨hran.holds, hran.varargs, hran.hidden⟩
  · exact hbroke ρ' c' hpc' ⟨⟨hran.holds.scope, hran.holds.env⟩, hran.varargs, hran.hidden⟩

theorem runs_repeat {stmts : List Stmt} {cond : Expr} {fuel exit ending : Nat} (hs : Sited s)
    (hsmall : Small p) (hst : Grown s t) (htu : t.fs.pc ≤ u.fs.pc)
    (hfloor : s.fs.nactvar ≤ t.fs.freereg)
    (hbody : Runs P p fuel exit s t (execStmts P fuel stmts))
    (htest : ∀ ρ : Env V, Tests P p ρ t.fs.freereg t u ending false (evalTest P cond ρ))
    (hback : p.code[u.fs.pc]? = some (encodeAsbx .jmp 0 ((s.fs.pc : Int) - (u.fs.pc + 1))))
    (hleave : ∀ (varargs : List V) n c, c.pc = ending →
      ∀ (Y : Type) (m : Eval V σ ε Y) (post : Y × σ → Config V σ → Prop),
        (∀ c', c'.pc = exit → Same s.fs.nactvar c c' →
          Realises (advance P p varargs) n c' (m c'.world) post) →
        Realises (advance P p varargs) n c (m c.world) post) :
    RunsTo P p exit fuel s (execStmt P fuel (.repeat (.mk stmts) cond)) := by
  intro n ρ c hn hpc hholds Y k post hnext
  have hlength : s.fs.pc ≤ p.code.length := by
    have := hst.pc
    have := (List.getElem?_eq_some_iff.mp hback).1
    omega
  rw [execStmt, bind_assoc]
  refine realises_rounds (fun ρ' c' => c'.pc = s.fs.pc ∧ Ran s s.fs ρ c ρ' c')
    (fun ρ' c' => c'.pc = exit ∧ Ran s s.fs ρ c ρ' c') ?_ hn ⟨hpc, .refl hholds⟩ ?_
  · rintro n ρ₁ c₁ hn₁ ⟨hpc₁, hran₁⟩ k₁ post₁ hstop hagain
    rw [← hran₁.varargs] at hstop hagain ⊢
    rw [repeatRound, bind_assoc]
    refine hbody n ρ₁ c₁ hn₁ hpc₁ hran₁.holds Y _ post₁ (fun ρ₂ c₂ hpc₂ hran₂ => ?_)
      fun ρ₂ c₂ hpc₂ hran₂ => ?_
    · show Realises _ n c₂ (((evalTest P cond ρ₂ >>= _) >>= k₁) c₂.world) post₁
      rw [bind_assoc, ← hran₂.varargs]
      refine htest ρ₂ n c₂ hpc₂ hran₂.holds Y _ post₁ fun ends c₃ hpc₃ hsame => ?_
      rw [hran₂.varargs, pure_bind]
      have hran₃ : Ran s s.fs ρ c (ρ₂.take ρ₁.depth) c₃ := by
        rw [hran₁.holds.depth]
        have hran : Ran s t.fs ρ c ρ₂ c₂ := Ran.trans (Grown.refl s) hran₁ hran₂
        exact (hran.first hst).same hs rfl hfloor hsame
      cases ends with
      | true =>
          rw [if_neg (by decide)] at hpc₃
          rw [if_pos rfl]
          refine hleave ρ₁.varargs n c₃ hpc₃ Y (k₁ _) post₁ fun c₄ hpc₄ hsame₄ => ?_
          exact hstop _ c₄ ⟨hpc₄, hran₃.same hs rfl (Nat.le_refl _) hsame₄⟩
      | false =>
          rw [if_pos rfl] at hpc₃
          rw [if_neg Bool.false_ne_true]
          rw [← hpc₃] at hback
          refine Realises.back (advance_jump hsmall hback hlength) ?_
          exact hagain (ρ₂.take ρ₁.depth) { c₃ with pc := s.fs.pc } ⟨rfl, hran₃.moved _⟩
    · refine hstop (ρ₂.take ρ₁.depth) c₂ ⟨hpc₂, ?_⟩
      rw [hran₁.holds.depth]
      exact Ran.trans (Grown.refl s) hran₁ hran₂
  · rintro ρ' c' ⟨hpc', hran'⟩
    exact hnext ρ' c' hpc' hran'

theorem executes_repeat {more : List Name} {stmts : List Stmt} {cond : Expr}
    (hcond : ∀ ρ : Env V, Correct α P ρ (names ++ more) cond)
    (hbody : ExecutesItems (α := α) P true names more (stmtItems stmts)
      fun fuel => execStmts P fuel stmts) :
    Executes (α := α) P inLoop names []
      (lowerRepeat (block false false (.mk stmts)) (expr cond))
      fun fuel => execStmt P fuel (.repeat (.mk stmts) cond) := by
  intro s hs hnames
  simp only [lowerRepeat, jumpBack, block, ensures_bind, ensures_getFs, ensures_modifyFs,
    ensures_discard, ensures_codeAsbx, ensures_fixSbx]
  let s₁ : LowerState α := { s with fs := { s.fs with
    loopBreakLevel := s.fs.loopBreakLevel ++ [s.fs.nactvar] } }
  have hgrowns : Grown s s₁ := (Grown.refl s).level _
  refine hbody.block (s := s₁) (hs.level _) hnames fun b hb hnames' => ?_
  rw [if_neg Bool.false_ne_true]
  refine (Ensures.all fun ρ => testJump_ok (hcond ρ).value false hb.sited.ready hnames').mono
    fun j t ht => ?_
  obtain ⟨hgrown₁, hfree, hstart, hlast, hjump, -⟩ := ht ⟨[], P.nil, []⟩
  have hsitedt : Sited t := hb.sited.extends hgrown₁ (hb.sited.ready.free.trans hfree)
  have hnone := closeLevel_none fun l (hl : l ∈ t.fs.locals.drop s.fs.locals.length) =>
    hsitedt.uncaptured l (List.mem_of_mem_drop hl)
  rw [hnone]
  let t₁ : LowerState α := { t with
    fs := t.fs.emit (encodeAsbx .jmp (closeA none) ((s.fs.pc : Int) - (t.fs.pc + 1))) }
  let t₂ : LowerState α := { t₁ with fs := t₁.fs.fixSbx j t₁.fs.pc }
  let t₃ : LowerState α := { t₂ with fs := { t₂.fs with
    loopBreakLevel := t₂.fs.loopBreakLevel.dropLast } }
  have hemit : Extends t t₁ := (Extends.refl t).emit _
  have hgrownb : Grown b t₁ := hgrown₁.onward.trans hemit.onward
  have hgrown₂ : Grown s b := hgrowns.trans hb.grown
  have hfresh : j ∉ t₁.fs.breakList := by
    show j ∉ t.fs.breakList
    rw [hgrown₁.breakList]
    exact hb.sited.not_break hstart
  have hgrown₃ : Grown s t₃ :=
    ((hgrown₂.trans hgrownb).fixSbx (hgrown₂.pc.trans hstart) hfresh _).level _
  have hsited₃ : Sited t₃ := ((hsitedt.extends hemit hsitedt.ready.free).fixSbx j _).level _
  have hpc₁ : t₁.fs.pc = t.fs.pc + 1 := pc_emit _ _
  have hpc₃ : t₃.fs.pc = t₁.fs.pc := fixSbx_pc _ _ _
  have hleft := leaveBlock_ok (P := P) hs hsited₃ hgrown₃
  let u : LowerState α := { t₃ with fs := t₃.fs.leaveBlock s.fs.locals.length true }
  have hlooped : Looped P s (fun fuel => execStmt P fuel (.repeat (.mk stmts) cond)) u := by
    refine ⟨hleft.grown, hleft.sited, hleft.locals, ?_⟩
    intro p fuel hsmall hcovers hinner
    have hspc : s.fs.pc ≤ b.fs.pc := hgrown₂.pc
    have hle : t₃.fs.pc ≤ u.fs.pc := hleft.pc
    have hend : u.fs.pc ≤ p.code.length := hinner.le_length (by omega) (Nat.le_refl _)
    have hfixed : Follows p t₂.fs s.fs.pc t₁.fs.pc u.fs.pc :=
      (hleft.follows p s.fs.pc u.fs.pc hinner).mono (Nat.le_refl _) (Nat.le_of_eq hpc₃.symm)
    have hahead : Follows p t₁.fs s.fs.pc j u.fs.pc :=
      (hfixed.mono (Nat.le_refl _) (by omega)).unfixed (.inl (Nat.le_refl _))
    have hinside : Follows p b.fs s₁.fs.pc b.fs.pc u.fs.pc :=
      (hahead.mono (Nat.le_refl _) hstart).before hgrownb (Nat.le_refl _)
    have htest : Agree p t.fs b.fs.pc j :=
      ((hahead.mono hspc (Nat.le_refl _)).before hemit.onward (by omega)).agree hb.sited
        hgrown₁.breakList (Nat.le_refl _)
    have hexitjmp : p.code[j]? = some (encodeAsbx .jmp 0 ((t₁.fs.pc : Int) - (j + 1))) :=
      hfixed.fixed (by omega) (by omega) hfresh (by decide)
        ((getElem?_grown hemit.code (by
          show j < t.fs.pc
          omega)).trans hjump)
    have hback : p.code[t.fs.pc]? =
        some (encodeAsbx .jmp 0 ((s.fs.pc : Int) - (t.fs.pc + 1))) := by
      have hbehind : Follows p t₁.fs (j + 1) t₁.fs.pc u.fs.pc :=
        (hfixed.mono (by omega) (Nat.le_refl _)).unfixed (.inr (Nat.lt_succ_self j))
      rw [hbehind.unbroken (by omega) (by omega) (hsitedt.not_break (Nat.le_refl _))]
      exact emit_last rfl
    have hcovers₃ : Covers p t₃.fs := hleft.covers p hcovers
    have hcoverst : Covers p t.fs := ⟨hcovers₃.constants, hcovers₃.maxstack⟩
    have hcoversb : Covers p b.fs := hcoverst.onward hgrown₁.onward
    refine runs_repeat hs hsmall hgrown₂ hgrown₁.pc
      (hgrown₂.nactvar.trans hb.sited.ready.free) ?_
      (fun ρ => (ht ρ).tests p t₁.fs.pc hsmall hcoverst htest (by omega) hexitjmp) hback ?_
    · exact (hb.runs p fuel u.fs.pc hsmall hcoversb hend hinside).unlevel
    · intro varargs n c hpc
      exact hleft.runs p u.fs.pc hsmall hcovers (hinner.mono (by omega) (Nat.le_refl _)) varargs n
        c (hpc.trans hpc₃.symm)
  exact hlooped.fixed hs hnames rfl

end Loops

end Luatier.Lowering
