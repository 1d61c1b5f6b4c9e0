import Luatier.Frontend.GotoTree
import Luatier.Frontend.GotoLinks
import Luatier.Frontend.Sema

/-!
# Where gotos jump to

The jump of a goto, held against the rules of the language.
-/

namespace Luatier.Lowering

open StateFrame

variable {α : Type}

def Instruction.closes (i : Instruction α) (r : Nat) : Prop := 0 < i.a ∧ i.a - 1 ≤ r

instance (i : Instruction α) (r : Nat) : Decidable (i.closes r) :=
  inferInstanceAs (Decidable (_ ∧ _))

def Proto.reg (p : Proto α) (d : Nat) : Nat := p.declRegs.getD d 0

/--
The jump of goto number `i` lands on the label that the goto means.  Of the
locals in scope at the goto it closes those that are not in scope at the label.
-/
def Proto.GotoRight (p : Proto α) (i : Nat) (g : GotoPlace) : Prop :=
  ∃ target m l ins, g.target = some target ∧ p.gotoMarks[i]? = some m ∧
    p.labelMarks[target.num]? = some l ∧ p.code[m.pc]? = some ins ∧
    ins.op = some .jmp ∧ (m.pc : Int) + 1 + ins.sbx = l.pc ∧
    ∀ d ∈ g.scope, ins.closes (p.reg d) ↔ d ∉ target.scope

/--
No label further out takes the goto, the jump can hold the distance, and the
goto enters the scope of no local, or it leaves locals only that are in registers
above those of the locals in scope at the label.
-/
def Proto.GotoMeets (p : Proto α) (i : Nat) (g : GotoPlace) : Prop :=
  g.stolen = false ∧ ∀ target m l, g.target = some target → p.gotoMarks[i]? = some m →
    p.labelMarks[target.num]? = some l → Fits ((l.pc : Int) - (m.pc + 1)) ∧
      (target.scope <+: g.scope ∨
        ∀ d ∈ g.scope, d ∉ target.scope → ∀ e ∈ target.scope, p.reg e < p.reg d)

theorem lowerChunk_linked {chunk : Block} {p : Proto α} (hwf : chunk.wellFormed = true)
    (h : lowerChunk chunk = .ok p) : p.All Proto.Linked := by
  obtain ⟨⟨_, s⟩, hbody, hp⟩ := except_bind_ok.mp h
  cases hp
  exact (functionBody_ok _ true (block_ok chunk hwf true) hbody).1

theorem getElem?_of_forall₂ {γ δ : Type} {R : γ → δ → Prop} {xs : List γ} {ys : List δ}
    (h : List.Forall₂ R xs ys) {i : Nat} {x : γ} {y : δ} (hx : xs[i]? = some x)
    (hy : ys[i]? = some y) : R x y := by
  obtain ⟨hi, rfl⟩ := List.getElem?_eq_some_iff.mp hx
  obtain ⟨hj, rfl⟩ := List.getElem?_eq_some_iff.mp hy
  exact h.get hi hj

theorem MarkScope.nactvar_le {declRegs : List Nat} {nactvar : Nat} {scope : List Nat}
    (h : MarkScope declRegs nactvar scope) (hsmall : ∀ r ∈ declRegs, r < maxStack) :
    nactvar ≤ maxStack := by
  rw [h.active]
  refine topOf_le fun r hr => ?_
  obtain ⟨d, hd, rfl⟩ := List.mem_map.mp hr
  have hlt := h.declared d hd
  rw [List.getD_eq_getElem?_getD, List.getElem?_eq_getElem hlt]
  exact hsmall _ (List.getElem_mem hlt)

/-- Of the registers of the goto, the jump closes those from the label's count on. -/
theorem closes_jumpTo {m l : Mark} (hl : l.nactvar ≤ maxStack) {r : Nat}
    (hr : r < m.nactvar) : (jumpTo m l : Instruction α).closes r ↔ l.nactvar ≤ r := by
  have ha : (jumpTo m l : Instruction α).a = gotoCloseA m.nactvar l.nactvar := by
    refine Nat.mod_eq_of_lt ?_
    rw [gotoCloseA]
    have hmax : l.nactvar ≤ 250 := hl
    split <;> omega
  rw [Instruction.closes, ha, gotoCloseA]
  split <;> omega

theorem MarkScope.above {p : Proto α} {nactvar : Nat} {scope outer : List Nat}
    (h : MarkScope p.declRegs nactvar scope) (hgrown : outer <+: scope) :
    ∀ d ∈ scope, d ∉ outer → ∀ e ∈ outer, p.reg e < p.reg d := by
  obtain ⟨rest, rfl⟩ := hgrown
  intro d hd hnot e he
  have hsorted := h.sorted
  rw [regsOf, List.map_append] at hsorted
  have hd := (List.mem_append.mp hd).resolve_left hnot
  exact (List.pairwise_append.mp hsorted).2.2 _ (List.mem_map_of_mem he) _
    (List.mem_map_of_mem hd)

theorem taken_of_stolen {g : GotoPlace} {target t : LabelPlace} (hstolen : g.stolen = true)
    (htarget : g.target = some target) (htaken : g.taken = some t) :
    t.num < g.seen ∧ g.seen ≤ target.num := by
  rw [GotoPlace.stolen, Bool.and_eq_true, Bool.and_eq_true, Bool.not_eq_true',
    bne_iff_ne] at hstolen
  obtain ⟨⟨hown, hsome⟩, hne⟩ := hstolen
  obtain ⟨e, he⟩ := Option.isSome_iff_exists.mp hsome
  rw [GotoPlace.taken, hown, if_neg Bool.false_ne_true, he] at htaken
  cases htaken
  constructor
  · obtain ⟨table, -, hfilter⟩ := List.exists_of_findSome?_eq_some he
    exact of_decide_eq_true (Option.filter_eq_some_iff.mp hfilter).2
  · refine Nat.not_lt.mp fun hlt => hne ?_
    rw [htarget]
    obtain ⟨outer, table, rest, henv, hlookup, hnone⟩ :=
      List.findSome?_eq_some_iff.mp htarget
    rw [GotoPlace.early, henv]
    refine List.findSome?_eq_some_iff.mpr ⟨outer, table, rest, rfl, ?_, fun t ht => ?_⟩
    · rw [hlookup, Option.filter_some, if_pos (decide_eq_true hlt)]
    · rw [hnone t ht]
      rfl

theorem goto_lands {chunk : Block} {p q : Proto α} (hwf : chunk.wellFormed = true)
    (h : lowerChunk chunk = .ok p) (hq : q.Within p) {i : Nat} {g : GotoPlace}
    (hg : (functionPlaces q.numparams q.body)[i]? = some g) :
    (q.GotoMeets i g → q.GotoRight i g) ∧
      (q.code.length ≤ 65536 → q.GotoRight i g → q.GotoMeets i g) := by
  obtain ⟨a, hlinked⟩ := (lowerChunk_linked hwf h).within hq
  obtain ⟨t, htaken, hresolved, hscope, hentry⟩ :=
    functionLink hlinked.run hlinked.waiting hg
  obtain ⟨m, l, hm, hl, hins⟩ := hlinked.jumps _ hresolved
  obtain ⟨hgscope, horder⟩ := getElem?_of_forall₂ hlinked.gotos hm hentry
  have hlscope := getElem?_of_forall₂ hlinked.labels hl hscope
  have hcloses : ∀ d ∈ g.scope,
      ((jumpTo m l : Instruction α).closes (q.reg d) ↔ l.nactvar ≤ q.reg d) :=
    fun d hd => closes_jumpTo (hlscope.nactvar_le hlinked.small)
      (hgscope.lt (List.mem_map_of_mem hd))
  have hbelow : ∀ e ∈ t.scope, q.reg e < l.nactvar :=
    fun e he => hlscope.lt (List.mem_map_of_mem he)
  constructor
  · rintro ⟨hstolen, hmeets⟩
    rw [GotoPlace.taken_eq_target g hstolen] at htaken
    obtain ⟨hfits, habove⟩ := hmeets t m l htaken hm hl
    refine ⟨t, m, l, _, htaken, hm, hl, hins, rfl, ?_, fun d hd => ?_⟩
    · rw [jumpTo, (sbx_encodeAsbx_iff _ _ _).mpr hfits]
      omega
    · rw [hcloses d hd]
      constructor
      · exact fun hle hmem => absurd (hbelow d hmem) (Nat.not_lt.mpr hle)
      · intro hnot
        rw [hlscope.active]
        refine topOf_le fun r hr => ?_
        obtain ⟨e, he, rfl⟩ := List.mem_map.mp hr
        rcases habove with hgrown | habove
        · exact hgscope.above hgrown d hd hnot e he
        · exact habove d hd hnot e he
  · rintro hshort ⟨target, m', l', ins, htarget, hm', hl', hins', -, hland, hclose⟩
    cases hm.symm.trans hm'
    cases hins.symm.trans hins'
    have hstolen : g.stolen = false := by
      refine Bool.eq_false_iff.mpr fun hstolen => ?_
      obtain ⟨hbefore, hafter⟩ := taken_of_stolen hstolen htarget htaken
      have hle := horder.before t.num l hl hbefore
      have hlt := horder.after target.num l' hl' hafter
      have hin := hlinked.labelsIn l' (List.mem_of_getElem? hl')
      rw [jumpTo, sbx_encodeAsbx] at hland
      omega
    rw [GotoPlace.taken_eq_target g hstolen] at htaken
    cases htaken.symm.trans htarget
    cases hl.symm.trans hl'
    refine ⟨hstolen, fun target' m' l' htarget' hm' hl' => ?_⟩
    cases htarget.symm.trans htarget'
    cases hm.symm.trans hm'
    cases hl.symm.trans hl'
    constructor
    · refine (sbx_encodeAsbx_iff .jmp (gotoCloseA m.nactvar l.nactvar) _ (α := α)).mp ?_
      rw [jumpTo] at hland
      omega
    · refine Or.inr fun d hd hnot e he => ?_
      have hle := (hcloses d hd).mp ((hclose d hd).mpr hnot)
      exact Nat.lt_of_lt_of_le (hbelow e he) hle

/--
`::l:: do do goto l end ::l:: f() end`: the goto means the second label, which is
in a block around it, and jumps back to the first.
-/
def misledChunk : Block :=
  .mk [.label "l",
    .doBlock (.mk [
      .doBlock (.mk [.goto "l"]),
      .label "l",
      .callStmt (.call (.name "f") [] none)])]

theorem lower_misledChunk :
    (lowerChunk (α := Empty) misledChunk).map (fun p =>
      (p.gotoMarks, p.labelMarks, p.code[0]?)) =
      .ok ([⟨0, 0⟩], [⟨0, 0⟩, ⟨1, 0⟩], some (encodeAsbx .jmp 0 (-1))) := by
  decide +kernel

theorem target_misledChunk :
    ((functionPlaces 0 misledChunk)[0]?.bind GotoPlace.target).map LabelPlace.num = some 1 := by
  decide +kernel

/-- The analysis accepts the chunk, and its goto does not land on its label. -/
theorem misledChunk_wrong : semaAnalyze misledChunk = .ok () ∧
    ∃ (p : Proto Empty) (g : GotoPlace), lowerChunk misledChunk = .ok p ∧
      (functionPlaces 0 misledChunk)[0]? = some g ∧ ¬ p.GotoRight 0 g := by
  refine ⟨by decide +kernel, ?_⟩
  have hlower := lower_misledChunk
  have htarget := target_misledChunk
  cases hp : lowerChunk (α := Empty) misledChunk with
  | error e => rw [hp] at hlower; exact nomatch hlower
  | ok p =>
      rw [hp] at hlower
      have hmarks : (p.gotoMarks, p.labelMarks, p.code[0]?) = _ := Except.ok.inj hlower
      obtain ⟨hgotos, hlabels⟩ := Prod.mk.inj hmarks
      obtain ⟨hlabels, hcode⟩ := Prod.mk.inj hlabels
      cases hg : (functionPlaces 0 misledChunk)[0]? with
      | none => rw [hg] at htarget; exact nomatch htarget
      | some g =>
          refine ⟨p, g, rfl, rfl, ?_⟩
          rintro ⟨target, m, l, ins, ht, hm, hl, hins, -, hland, -⟩
          rw [hg, Option.bind_some, ht] at htarget
          have hnum : target.num = 1 := Option.some.inj htarget
          rw [hgotos] at hm
          rw [hlabels, hnum] at hl
          cases hm
          cases hl
          rw [hcode] at hins
          cases hins
          rw [sbx_encodeAsbx] at hland
          exact absurd hland (by decide)

theorem lowerChunk_body {chunk : Block} {p : Proto α} (h : lowerChunk chunk = .ok p) :
    p.numparams = 0 ∧ p.body = chunk := by
  obtain ⟨⟨_, s⟩, -, hp⟩ := except_bind_ok.mp h
  cases hp
  exact ⟨rfl, rfl⟩

/-- `do local x  local function f() return x end  goto l end ::l::` -/
def captureChunk : Block :=
  .mk [.doBlock (.mk [
      .localDecl ["x"] [],
      .localFunction "f" (.mk [] false (.mk [.return [.name "x"]])),
      .goto "l"]),
    .label "l"]

/-- The goto leaves the block of `x`, which `f` refers to, and closes it. -/
theorem captureChunk_lands : ∃ (p : Proto Empty) (g : GotoPlace),
    lowerChunk captureChunk = .ok p ∧
      (functionPlaces p.numparams p.body)[0]? = some g ∧ g.scope = [0, 1] ∧
      p.GotoRight 0 g := by
  have hlower : (lowerChunk (α := Empty) captureChunk).map (fun p =>
      (p.gotoMarks, p.labelMarks)) = .ok ([⟨3, 2⟩], [⟨5, 0⟩]) := by decide +kernel
  cases hp : lowerChunk (α := Empty) captureChunk with
  | error e => rw [hp] at hlower; exact nomatch hlower
  | ok p =>
      rw [hp] at hlower
      have hmarks : (p.gotoMarks, p.labelMarks) = _ := Except.ok.inj hlower
      obtain ⟨hgotos, hlabels⟩ := Prod.mk.inj hmarks
      obtain ⟨hnum, hbody⟩ := lowerChunk_body hp
      have hg : (functionPlaces p.numparams p.body)[0]? =
          some ⟨"l", [0, 1], 0, [[], [("l", ⟨0, []⟩)]]⟩ := by
        rw [hnum, hbody]
        rfl
      refine ⟨p, _, rfl, hg, rfl,
        (goto_lands (by decide +kernel) hp (.self p) hg).1 ⟨rfl, ?_⟩⟩
      intro target m l htarget hm hl
      cases htarget
      rw [hgotos] at hm
      rw [hlabels] at hl
      cases hm
      cases hl
      exact ⟨⟨by decide, by decide⟩, Or.inl (List.nil_prefix)⟩

end Luatier.Lowering
