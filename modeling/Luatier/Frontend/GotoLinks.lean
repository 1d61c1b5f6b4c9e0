import Luatier.Frontend.GotoPlaces

/-!
# What the linker makes of a function

The linker gives each goto the label that `GotoPlace.taken` says, by induction
over the tree.  A goto that still waits means the innermost label of the blocks
that are still open.
-/

namespace Luatier

structure BlockMatches (nl : Nat) (scopes : List (List Nat)) (b : OpenBlock)
    (t : LabelTable) : Prop where
  names : ∀ name, b.names.contains name = (t.lookup name).isSome
  defined : ∀ name, b.defined.lookup name =
    ((t.lookup name).filter fun p => decide (p.num < nl)).map LabelPlace.num
  scopes : ∀ name p, t.lookup name = some p → p.num < nl →
    scopes[p.num]? = some p.scope

structure Matches (env : List LabelTable) (scope : List Nat) (nl nd : Nat) (a : Linker) :
    Prop where
  scope : a.scope = scope
  ndecls : a.ndecls = nd
  nlabels : a.labelScopes.length = nl
  blocks : List.Forall₂ (BlockMatches nl a.labelScopes) a.blocks env

def Gap (env : List LabelTable) (nl hi : Nat) : Prop :=
  ∀ t ∈ env, ∀ name p, t.lookup name = some p → p.num < nl ∨ hi ≤ p.num

theorem Gap.mono {env : List LabelTable} {nl hi nl' hi' : Nat} (h : Gap env nl hi)
    (hnl : nl ≤ nl') (hhi : hi' ≤ hi) : Gap env nl' hi' := by
  intro t ht name p hp
  rcases h t ht name p hp with h | h
  · exact Or.inl (Nat.lt_of_lt_of_le h hnl)
  · exact Or.inr (Nat.le_trans hhi h)

structure Linked (env : List LabelTable) (places : List GotoPlace) (a a' : Linker) :
    Prop where
  saved : a'.saved = a.saved
  kept : a'.blocks.map (fun b => (b.before, b.entry)) =
    a.blocks.map fun b => (b.before, b.entry)
  labels : a.labelScopes <+: a'.labelScopes
  gotos : a'.gotos = a.gotos ++ places.map GotoPlace.entry
  resolved : ∃ R, a'.resolved = a.resolved ++ R ∧ ∀ r ∈ R,
    ∃ j g p, r = (a.gotos.length + j, p.num) ∧ places[j]? = some g ∧
      g.taken = some p ∧ a'.labelScopes[p.num]? = some p.scope
  waiting : ∃ W, a'.waiting = a.waiting ++ W ∧ ∀ w ∈ W,
    ∃ j g, w = (g.label, a.gotos.length + j) ∧ places[j]? = some g ∧
      g.taken = env.findSome? (·.lookup g.label)

namespace Linked

variable {env : List LabelTable} {ps qs : List GotoPlace} {a b c : Linker}

theorem refl (env : List LabelTable) (a : Linker) : Linked env [] a a where
  saved := rfl
  kept := rfl
  labels := List.prefix_refl _
  gotos := (List.append_nil _).symm
  resolved := ⟨[], (List.append_nil _).symm, fun _ h => nomatch h⟩
  waiting := ⟨[], (List.append_nil _).symm, fun _ h => nomatch h⟩

theorem getElem?_append_add {β : Type} (xs ys : List β) (j : Nat) :
    (xs ++ ys)[xs.length + j]? = ys[j]? := by
  rw [List.getElem?_append_right (Nat.le_add_right _ _), Nat.add_sub_cancel_left]

theorem trans (h : Linked env ps a b) (h' : Linked env qs b c) :
    Linked env (ps ++ qs) a c := by
  have hlen : b.gotos.length = a.gotos.length + ps.length := by
    rw [h.gotos, List.length_append, List.length_map]
  obtain ⟨R, hR, hRs⟩ := h.resolved
  obtain ⟨R', hR', hRs'⟩ := h'.resolved
  obtain ⟨W, hW, hWs⟩ := h.waiting
  obtain ⟨W', hW', hWs'⟩ := h'.waiting
  refine ⟨h'.saved.trans h.saved, h'.kept.trans h.kept, h.labels.trans h'.labels, ?_,
    ⟨R ++ R', ?_, ?_⟩, ⟨W ++ W', ?_, ?_⟩⟩
  · rw [h'.gotos, h.gotos, List.map_append, List.append_assoc]
  · rw [hR', hR, List.append_assoc]
  · intro r hr
    rcases List.mem_append.mp hr with hr | hr
    · obtain ⟨j, g, p, rfl, hg, htaken, hscope⟩ := hRs r hr
      exact ⟨j, g, p, rfl, Linker.getElem?_of_grown (List.prefix_append _ _) hg, htaken,
        Linker.getElem?_of_grown h'.labels hscope⟩
    · obtain ⟨j, g, p, rfl, hg, htaken, hscope⟩ := hRs' r hr
      refine ⟨ps.length + j, g, p, ?_, (getElem?_append_add _ _ _).trans hg, htaken, hscope⟩
      rw [hlen, Nat.add_assoc]
  · rw [hW', hW, List.append_assoc]
  · intro w hw
    rcases List.mem_append.mp hw with hw | hw
    · obtain ⟨j, g, rfl, hg, htaken⟩ := hWs w hw
      exact ⟨j, g, rfl, Linker.getElem?_of_grown (List.prefix_append _ _) hg, htaken⟩
    · obtain ⟨j, g, rfl, hg, htaken⟩ := hWs' w hw
      refine ⟨ps.length + j, g, ?_, (getElem?_append_add _ _ _).trans hg, htaken⟩
      rw [hlen, Nat.add_assoc]

theorem entry (h : Linked env ps a b) :
    b.blocks.head?.map OpenBlock.entry = a.blocks.head?.map OpenBlock.entry := by
  have hhead := congrArg (fun l => l.head?.map Prod.snd) h.kept
  rw [List.head?_map, List.head?_map, Option.map_map, Option.map_map] at hhead
  exact hhead

theorem of_eq (hsaved : b.saved = a.saved) (hblocks : b.blocks = a.blocks)
    (hwaiting : b.waiting = a.waiting) (hresolved : b.resolved = a.resolved)
    (hgotos : b.gotos = a.gotos) (hlabels : b.labelScopes = a.labelScopes) :
    Linked env [] a b where
  saved := hsaved
  kept := by rw [hblocks]
  labels := by rw [hlabels]
  gotos := by rw [hgotos, List.map_nil, List.append_nil]
  resolved := ⟨[], by rw [hresolved, List.append_nil], fun _ h => nomatch h⟩
  waiting := ⟨[], by rw [hwaiting, List.append_nil], fun _ h => nomatch h⟩

end Linked

/-! ## Tables -/

theorem lookup_append {β : Type} (xs ys : List (Name × β)) (name : Name) :
    (xs ++ ys).lookup name = (xs.lookup name).or (ys.lookup name) := by
  induction xs with
  | nil => rfl
  | cons x xs ih =>
      obtain ⟨n, b⟩ := x
      rw [List.cons_append, List.lookup_cons, List.lookup_cons]
      cases name == n with
      | true => rfl
      | false => exact ih

theorem mem_of_lookup {β : Type} {xs : List (Name × β)} {name : Name} {b : β}
    (h : xs.lookup name = some b) : (name, b) ∈ xs := by
  induction xs with
  | nil => exact nomatch h
  | cons x xs ih =>
      obtain ⟨n, b'⟩ := x
      rw [List.lookup_cons] at h
      cases hn : name == n with
      | true =>
          rw [hn] at h
          cases eq_of_beq hn
          cases h
          exact List.mem_cons_self
      | false =>
          rw [hn] at h
          exact List.mem_cons_of_mem _ (ih h)

theorem le_of_mem_blockTable (allowLast : Bool) (entry : List Nat) (stmts : List Stmt) :
    ∀ (nl nd : Nat) (scope : List Nat) (name : Name) (p : LabelPlace),
      (name, p) ∈ blockTable allowLast entry nl nd scope stmts →
        nl ≤ p.num ∧ p.num < nl + labelsIn (stmtsLabelEvents allowLast stmts) := by
  induction stmts with
  | nil => exact fun _ _ _ _ _ h => nomatch h
  | cons s stmts ih =>
      intro nl nd scope name p h
      have hrest : ∀ {es nl' nd' scope'},
          labelsIn (stmtsLabelEvents allowLast (s :: stmts)) = es +
            labelsIn (stmtsLabelEvents allowLast stmts) → nl' = nl + es →
          (name, p) ∈ blockTable allowLast entry nl' nd' scope' stmts →
            nl ≤ p.num ∧
              p.num < nl + labelsIn (stmtsLabelEvents allowLast (s :: stmts)) := by
        intro es nl' nd' scope' hes hnl' hmem
        obtain ⟨hle, hlt⟩ := ih nl' nd' scope' name p hmem
        omega
      cases s with
      | label n =>
          rw [blockTable] at h
          rcases List.mem_cons.mp h with h | h
          · cases h
            rw [stmtsLabelEvents, labelsIn]
            exact ⟨Nat.le_refl _, Nat.lt_add_of_pos_right (Nat.succ_pos _)⟩
          · exact hrest (Nat.add_comm _ _) rfl h
      | goto n => exact hrest (Nat.zero_add _).symm rfl h
      | localDecl | assign | ifs | «while» | «repeat» | forNum | forIn | «break» | «return»
        | callStmt | doBlock | functionDecl | localFunction =>
          exact hrest (labelsIn_append _ _) rfl h

theorem contains_labelNames (allowLast : Bool) (entry : List Nat) (name : Name)
    (stmts : List Stmt) : ∀ (nl nd : Nat) (scope : List Nat),
      (stmts.filterMap Stmt.labelName?).contains name =
        ((blockTable allowLast entry nl nd scope stmts).lookup name).isSome := by
  induction stmts with
  | nil => exact fun _ _ _ => rfl
  | cons s stmts ih =>
      intro nl nd scope
      cases s with
      | label n =>
          rw [blockTable, List.lookup_cons]
          show ((n :: stmts.filterMap Stmt.labelName?).contains name) = _
          rw [List.contains_cons]
          cases name == n with
          | true => rfl
          | false => exact (Bool.false_or _).trans (ih _ _ _)
      | goto | localDecl | assign | ifs | «while» | «repeat» | forNum | forIn | «break»
        | «return» | callStmt | doBlock | functionDecl | localFunction => exact ih _ _ _

/-! ## Steps of the linker -/

section Steps

variable {env : List LabelTable} {scope : List Nat} {nl nd : Nat} {a a' : Linker}

/-- The labels of a name that have been met, in the innermost block with one. -/
def earlyIn (env : List LabelTable) (name : Name) (nl : Nat) : Option LabelPlace :=
  env.findSome? fun t => (t.lookup name).filter fun p => decide (p.num < nl)

theorem earlyIn_cons (t : LabelTable) (env : List LabelTable) (name : Name) (nl : Nat) :
    earlyIn (t :: env) name nl =
      ((t.lookup name).filter fun p => decide (p.num < nl)).or (earlyIn env name nl) := by
  rw [earlyIn, List.findSome?_cons]
  cases (t.lookup name).filter fun p => decide (p.num < nl) <;> rfl

theorem findSome_defined {scopes : List (List Nat)} {blocks : List OpenBlock}
    (h : List.Forall₂ (BlockMatches nl scopes) blocks env) (name : Name) :
    blocks.findSome? (·.defined.lookup name) =
      (earlyIn env name nl).map LabelPlace.num := by
  induction h with
  | nil => rfl
  | @cons b t blocks env hb _ ih =>
      rw [List.findSome?_cons, hb.defined name, earlyIn_cons, ih]
      cases (t.lookup name).filter fun p => decide (p.num < nl) <;> rfl

theorem scope_of_earlyIn {scopes : List (List Nat)} {blocks : List OpenBlock}
    (h : List.Forall₂ (BlockMatches nl scopes) blocks env) {name : Name} {p : LabelPlace}
    (hp : earlyIn env name nl = some p) : scopes[p.num]? = some p.scope := by
  induction h with
  | nil => exact nomatch hp
  | @cons b t blocks env hb _ ih =>
      rw [earlyIn_cons] at hp
      cases ht : (t.lookup name).filter fun p => decide (p.num < nl) with
      | none =>
          rw [ht] at hp
          exact ih hp
      | some q =>
          rw [ht] at hp
          cases hp
          obtain ⟨hlookup, hlt⟩ := Option.filter_eq_some_iff.mp ht
          exact hb.scopes name p hlookup (of_decide_eq_true hlt)

/-- What the linker knows at a goto is what the goto takes, if it takes it at once. -/
theorem known_eq (h : Matches env scope nl nd a) (name : Name) :
    (∃ p, a.known name = some p.num ∧ a.labelScopes[p.num]? = some p.scope ∧
      (GotoPlace.mk name scope nl env).taken = some p) ∨
    (a.known name = none ∧ (GotoPlace.mk name scope nl env).taken =
      env.findSome? (·.lookup name)) := by
  have hseen : a.seen name = (earlyIn env name nl).map LabelPlace.num :=
    findSome_defined h.blocks name
  have hscope : ∀ p, earlyIn env name nl = some p → a.labelScopes[p.num]? = some p.scope :=
    fun p hp => scope_of_earlyIn h.blocks hp
  have hblocks := h.blocks
  cases hb : a.blocks with
  | nil =>
      rw [hb] at hblocks
      cases hblocks
      exact Or.inr ⟨by rw [Linker.known, hb]; exact hseen, rfl⟩
  | cons b blocks =>
      rw [hb] at hblocks
      cases hblocks with
      | @cons _ t _ env hbt hrest =>
          have hknown : a.known name =
              if (t.lookup name).isSome && !(b.defined.lookup name).isSome then none
              else (earlyIn (t :: env) name nl).map LabelPlace.num := by
            rw [Linker.known, hb]
            show (if b.names.contains name && _ then none else a.seen name) = _
            rw [hbt.names name, hseen]
          have htaken : (GotoPlace.mk name scope nl (t :: env)).taken =
              if (t.lookup name).isSome then (t :: env).findSome? (·.lookup name)
              else (earlyIn (t :: env) name nl).or ((t :: env).findSome? (·.lookup name)) :=
            rfl
          rw [hknown, htaken, hbt.defined name]
          cases hown : t.lookup name with
          | none =>
              -- The label of a block further out, seen or not.
              rw [earlyIn_cons, hown] at hscope ⊢
              cases hearly : earlyIn env name nl with
              | some p => exact Or.inl ⟨p, rfl, hscope p (hearly ▸ rfl), rfl⟩
              | none => exact Or.inr ⟨rfl, rfl⟩
          | some p =>
              have htarget : (t :: env).findSome? (·.lookup name) = some p := by
                rw [List.findSome?_cons, hown]
              rw [earlyIn_cons, hown] at hscope ⊢
              rw [htarget]
              by_cases hlt : p.num < nl
              · have hfilter : (some p).filter (fun p => decide (p.num < nl)) = some p := by
                  rw [Option.filter_some, if_pos (decide_eq_true hlt)]
                rw [hfilter] at hscope ⊢
                exact Or.inl ⟨p, rfl, hscope p rfl, rfl⟩
              · have hfilter : (some p).filter (fun p => decide (p.num < nl)) = none := by
                  rw [Option.filter_some, if_neg (by rw [decide_eq_true_eq]; exact hlt)]
                rw [hfilter]
                exact Or.inr ⟨rfl, rfl⟩

theorem Matches.goto (h : Matches env scope nl nd a) {name : Name}
    (hstep : Linker.step (.goto name) a = some a') :
    Matches env scope nl nd a' ∧ Linked env [⟨name, scope, nl, env⟩] a a' := by
  have hgotos : a.gotos ++ [⟨a.labelScopes.length, a.scope⟩] =
      a.gotos ++ [GotoPlace.mk name scope nl env].map GotoPlace.entry := by
    rw [h.scope, h.nlabels]
    rfl
  rcases known_eq h name with ⟨p, hknown, hscope, htaken⟩ | ⟨hknown, htaken⟩
  · rw [Linker.step_goto_known hknown] at hstep
    cases hstep
    refine ⟨⟨h.scope, h.ndecls, h.nlabels, h.blocks⟩, rfl, rfl, List.prefix_refl _, hgotos,
      ⟨[_], rfl, ?_⟩, ⟨[], (List.append_nil _).symm, fun _ hw => absurd hw List.not_mem_nil⟩⟩
    intro r hr
    cases List.mem_singleton.mp hr
    exact ⟨0, _, p, rfl, rfl, htaken, hscope⟩
  · rw [Linker.step_goto_waits hknown] at hstep
    cases hstep
    refine ⟨⟨h.scope, h.ndecls, h.nlabels, h.blocks⟩, rfl, rfl, List.prefix_refl _, hgotos,
      ⟨[], (List.append_nil _).symm, fun _ hr => absurd hr List.not_mem_nil⟩, ⟨[_], rfl, ?_⟩⟩
    intro w hw
    cases List.mem_singleton.mp hw
    exact ⟨0, _, rfl, rfl, htaken⟩

theorem Matches.declare (h : Matches env scope nl nd a) {count : Nat}
    (hstep : Linker.step (.declare count) a = some a') :
    Matches env (scope ++ List.range' nd count) nl (nd + count) a' ∧ Linked env [] a a' := by
  cases hstep
  exact ⟨⟨by rw [Linker.declare, h.scope, h.ndecls], by rw [Linker.declare, h.ndecls],
    h.nlabels, h.blocks⟩,
    .of_eq rfl rfl rfl rfl rfl rfl⟩

theorem BlockMatches.mono {scopes scopes' : List (List Nat)} {b : OpenBlock} {t : LabelTable}
    {nl' hi : Nat} (h : BlockMatches nl scopes b t)
    (hgap : ∀ name p, t.lookup name = some p → p.num < nl ∨ hi ≤ p.num) (hle : nl ≤ nl')
    (hhi : nl' ≤ hi) (hscopes : scopes <+: scopes') : BlockMatches nl' scopes' b t where
  names := h.names
  defined name := by
    rw [h.defined name]
    cases ht : t.lookup name with
    | none => rfl
    | some p =>
        have hiff : p.num < nl ↔ p.num < nl' := by
          have := hgap name p ht
          omega
        simp only [Option.filter_some, hiff]
  scopes name p hp hlt := by
    rcases hgap name p hp with hold | hnew
    · exact Linker.getElem?_of_grown hscopes (h.scopes name p hp hold)
    · omega

theorem matches_mono {scopes scopes' : List (List Nat)} {blocks : List OpenBlock}
    {nl' hi : Nat} (h : List.Forall₂ (BlockMatches nl scopes) blocks env)
    (hgap : Gap env nl hi) (hle : nl ≤ nl') (hhi : nl' ≤ hi) (hscopes : scopes <+: scopes') :
    List.Forall₂ (BlockMatches nl' scopes') blocks env := by
  induction h with
  | nil => exact .nil
  | @cons b t blocks env hb _ ih =>
      refine .cons (hb.mono (fun name p => hgap t List.mem_cons_self name p) hle hhi hscopes)
        (ih fun t' ht' => hgap t' (List.mem_cons_of_mem _ ht'))

theorem Matches.label {t : LabelTable} {past rest : LabelTable} {name : Name}
    {last : Bool} {entry : List Nat} (h : Matches (t :: env) scope nl nd a)
    (hgap : Gap env nl (nl + 1)) (hentry : a.blocks.head?.map OpenBlock.entry = some entry)
    (ht : t = past ++ (name, ⟨nl, if last then entry else scope⟩) :: rest)
    (hpast : ∀ q ∈ past, q.2.num < nl) (hrest : ∀ q ∈ rest, nl + 1 ≤ q.2.num)
    (hstep : Linker.step (.label name last) a = some a') :
    Matches (t :: env) scope (nl + 1) nd a' ∧ Linked (t :: env) [] a a' := by
  obtain ⟨hscope, hndecls, hnlabels, hblocks⟩ := h
  cases hb : a.blocks with
  | nil => rw [hb] at hblocks; cases hblocks
  | cons b blocks =>
      rw [hb] at hblocks hentry
      cases Option.some.inj hentry
      obtain ⟨hbt, htail⟩ := List.forall₂_cons.mp hblocks
      -- Where the entries of the table stand.
      have hlookup : ∀ n, t.lookup n = (past.lookup n).or
          (if n == name then some ⟨nl, if last then b.entry else scope⟩ else rest.lookup n) := by
        intro n
        rw [ht, lookup_append, List.lookup_cons]
        cases n == name <;> rfl
      have hpast' : ∀ n p, past.lookup n = some p → p.num < nl :=
        fun n p hp => hpast _ (mem_of_lookup hp)
      have hrest' : ∀ n p, rest.lookup n = some p → nl + 1 ≤ p.num :=
        fun n p hp => hrest _ (mem_of_lookup hp)
      rw [Linker.step, hb] at hstep
      dsimp only at hstep
      split at hstep
      · cases hstep
      · next hnew =>
          cases hstep
          have hnone : past.lookup name = none := by
            cases hp : past.lookup name with
            | none => rfl
            | some p =>
                have hsome : t.lookup name = some p := by rw [hlookup, hp]; rfl
                refine absurd ?_ hnew
                rw [hbt.defined name, hsome, Option.filter_some,
                  if_pos (decide_eq_true (hpast' _ p hp))]
                rfl
          refine ⟨⟨hscope, hndecls, ?_, List.forall₂_cons.mpr ⟨⟨hbt.names, ?_, ?_⟩, ?_⟩⟩, ?_⟩
          · rw [List.length_append, hnlabels]
            rfl
          · intro n
            rw [List.lookup_cons, hlookup n]
            cases hn : n == name with
            | true =>
                cases eq_of_beq hn
                rw [hnone, hnlabels]
                show _ = Option.map _ (Option.filter _ (some _))
                rw [Option.filter_some, if_pos (decide_eq_true (Nat.lt_succ_self nl))]
                rfl
            | false =>
                dsimp only
                rw [hbt.defined n, hlookup n, hn, if_neg Bool.false_ne_true]
                cases hp : past.lookup n with
                | some p =>
                    have := hpast' n p hp
                    simp only [Option.some_or, Option.filter_some, this,
                      Nat.lt_succ_of_lt this, decide_true, if_true]
                | none =>
                    cases hr : rest.lookup n with
                    | none => rfl
                    | some p =>
                        have := hrest' n p hr
                        simp only [Option.none_or, Option.filter_some,
                          Nat.not_lt.mpr this, Nat.not_lt.mpr (Nat.le_of_succ_le this),
                          decide_false]
          · intro n p hp hlt
            rw [hlookup n] at hp
            cases hq : past.lookup n with
            | some q =>
                rw [hq] at hp
                cases hp
                refine Linker.getElem?_of_grown (List.prefix_append _ _)
                  (hbt.scopes n p ?_ (hpast' n p hq))
                rw [hlookup n, hq]
                rfl
            | none =>
                rw [hq] at hp
                cases hn : n == name with
                | true =>
                    rw [hn] at hp
                    cases hp
                    rw [← hnlabels, List.getElem?_append_right (Nat.le_refl _), Nat.sub_self,
                      hscope]
                    rfl
                | false =>
                    rw [hn] at hp
                    have := hrest' n p hp
                    omega
          · exact matches_mono htail hgap (Nat.le_succ nl) (Nat.le_refl _)
              (List.prefix_append _ _)
          · exact ⟨rfl, by rw [hb]; rfl, List.prefix_append _ _, (List.append_nil _).symm,
              ⟨[], (List.append_nil _).symm, fun _ hr => absurd hr List.not_mem_nil⟩,
              ⟨[], (List.append_nil _).symm, fun _ hw => absurd hw List.not_mem_nil⟩⟩

end Steps

/-! ## Blocks -/

section Blocks

variable {env : List LabelTable} {scope : List Nat} {nl nd : Nat} {a a' : Linker}

def Linker.entered (a : Linker) (names : List Name) : Linker :=
  { a with
    saved := a.scope.length :: a.saved
    blocks := ⟨names, [], a.waiting.length, a.scope⟩ :: a.blocks }

theorem Linker.run_block {names : List Name} {es : List LabelEvent} {a a' : Linker}
    (h : run (.openScope :: .enter names :: (es ++ [.leave, .closeScope])) a = some a') :
    ∃ b c, run es (a.entered names) = some b ∧ step .leave b = some c ∧
      step .closeScope c = some a' := by
  have hrun : run (es ++ [.leave, .closeScope]) (a.entered names) = some a' := h
  rw [run_append] at hrun
  obtain ⟨b, hb, hrest⟩ := Option.bind_eq_some_iff.mp hrun
  obtain ⟨c, hc, hclose⟩ := Option.bind_eq_some_iff.mp hrest
  obtain ⟨d, hd, hnil⟩ := Option.bind_eq_some_iff.mp hclose
  cases hnil
  exact ⟨b, c, hb, hc, hd⟩

theorem Matches.entered (h : Matches env scope nl nd a) (allowLast : Bool)
    (stmts : List Stmt) :
    Matches (blockTable allowLast scope nl nd scope stmts :: env) scope nl nd
      (a.entered (stmts.filterMap Stmt.labelName?)) := by
  have hle : ∀ name p, (blockTable allowLast scope nl nd scope stmts).lookup name = some p →
      nl ≤ p.num :=
    fun name p hp => (le_of_mem_blockTable _ _ _ _ _ _ _ _ (mem_of_lookup hp)).1
  refine ⟨h.scope, h.ndecls, h.nlabels, .cons ⟨?_, ?_, ?_⟩ h.blocks⟩
  · exact fun name => contains_labelNames allowLast scope name stmts nl nd scope
  · intro name
    cases hp : (blockTable allowLast scope nl nd scope stmts).lookup name with
    | none => rfl
    | some p =>
        rw [Option.filter_some, if_neg]
        · rfl
        · rw [decide_eq_true_eq]
          exact Nat.not_lt.mpr (hle name p hp)
  · intro name p hp hlt
    exact absurd hlt (Nat.not_lt.mpr (hle name p hp))

/-- At the end of a block, its waiting gotos mean a label of it or of one around. -/
theorem Matches.left {t : LabelTable} {names : List Name} {scope' : List Nat}
    {nl' nd' : Nat} {places : List GotoPlace} {b c : Linker}
    (ha : a.scope = scope) (h : Matches (t :: env) scope' nl' nd' b)
    (hlt : ∀ name p, t.lookup name = some p → p.num < nl') (hgrown : scope <+: scope')
    (hlink : Linked (t :: env) places (a.entered names) b)
    (hleave : Linker.step .leave b = some c) (hclose : Linker.step .closeScope c = some a') :
    Matches env scope nl' nd' a' ∧ Linked env places a a' := by
  obtain ⟨hscope, hndecls, hnlabels, hblocks⟩ := h
  obtain ⟨R, hR, hRs⟩ := hlink.resolved
  obtain ⟨W, hW, hWs⟩ := hlink.waiting
  have hkept := hlink.kept
  have hsaved : b.saved = a.scope.length :: a.saved := hlink.saved
  cases hb : b.blocks with
  | nil => rw [hb] at hblocks; exact nomatch hblocks
  | cons top blocks =>
      rw [hb] at hblocks hkept
      obtain ⟨htop, htail⟩ := List.forall₂_cons.mp hblocks
      obtain ⟨hbefore, hkept⟩ := List.cons_eq_cons.mp hkept
      have hbefore : top.before = a.waiting.length := congrArg Prod.fst hbefore
      have hdefined : ∀ name, top.defined.lookup name =
          (t.lookup name).map LabelPlace.num := by
        intro name
        rw [htop.defined name]
        cases hp : t.lookup name with
        | none => rfl
        | some p => rw [Option.filter_some, if_pos (decide_eq_true (hlt name p hp))]
      have htake : b.waiting.take top.before = a.waiting := by
        rw [hbefore, hW]
        exact List.take_left
      have hdrop : b.waiting.drop top.before = W := by
        rw [hbefore, hW]
        exact List.drop_left
      rw [Linker.step, hb] at hleave
      cases hleave
      rw [Linker.step] at hclose
      dsimp only at hclose
      rw [hsaved] at hclose
      cases hclose
      refine ⟨⟨?_, hndecls, hnlabels, htail⟩, rfl, hkept, hlink.labels, hlink.gotos,
        ⟨R ++ W.filterMap fun w => (top.defined.lookup w.1).map (w.2, ·), ?_, ?_⟩,
        ⟨W.filter fun w => !(top.defined.lookup w.1).isSome, ?_, ?_⟩⟩
      · show b.scope.take a.scope.length = scope
        rw [hscope, ha]
        exact (List.prefix_iff_eq_take.mp hgrown).symm
      · show b.resolved ++ _ = _
        rw [hdrop, hR, List.append_assoc]
        rfl
      · intro r hr
        rcases List.mem_append.mp hr with hr | hr
        · exact hRs r hr
        · obtain ⟨w, hw, hlookup⟩ := List.mem_filterMap.mp hr
          obtain ⟨j, g, rfl, hg, htaken⟩ := hWs w hw
          obtain ⟨k, hk, rfl⟩ := Option.map_eq_some_iff.mp hlookup
          rw [hdefined] at hk
          obtain ⟨p, hp, rfl⟩ := Option.map_eq_some_iff.mp hk
          refine ⟨j, g, p, rfl, hg, ?_, htop.scopes _ p hp (hlt _ p hp)⟩
          rw [htaken, List.findSome?_cons, hp]
      · show b.waiting.take top.before ++ (b.waiting.drop top.before).filter _ = _
        rw [htake, hdrop]
      · intro w hw
        obtain ⟨hw, hnone⟩ := List.mem_filter.mp hw
        obtain ⟨j, g, rfl, hg, htaken⟩ := hWs w hw
        refine ⟨j, g, rfl, hg, ?_⟩
        rw [hdefined, Option.isSome_map, Bool.not_eq_true', Option.isSome_eq_false_iff,
          Option.isNone_iff_eq_none] at hnone
        rw [htaken, List.findSome?_cons, hnone]

theorem Matches.inScope {es : List LabelEvent} {places : List GotoPlace} {count nl' nd' : Nat}
    (h : Matches env scope nl nd a)
    (hrun : Linker.run (.openScope :: .declare count :: (es ++ [.closeScope])) a = some a')
    (hbody : ∀ b c, Matches env (scope ++ List.range' nd count) nl (nd + count) b →
      Linker.run es b = some c →
      Matches env (scope ++ List.range' nd count) nl' nd' c ∧ Linked env places b c) :
    Matches env scope nl' nd' a' ∧ Linked env places a a' := by
  obtain ⟨b, hb, hrest⟩ := Option.bind_eq_some_iff.mp hrun
  cases hb
  obtain ⟨c, hc, hrest⟩ := Option.bind_eq_some_iff.mp hrest
  have hopen : Matches env scope nl nd { a with saved := a.scope.length :: a.saved } :=
    ⟨h.scope, h.ndecls, h.nlabels, h.blocks⟩
  obtain ⟨hmatch, -⟩ := hopen.declare hc
  have hc' : c = { a with
      saved := a.scope.length :: a.saved
      scope := a.scope ++ List.range' a.ndecls count
      ndecls := a.ndecls + count } := (Option.some.inj hc).symm
  rw [Linker.run_append] at hrest
  obtain ⟨d, hd, hclose⟩ := Option.bind_eq_some_iff.mp hrest
  obtain ⟨hmatch', hlink⟩ := hbody c d hmatch hd
  obtain ⟨f, hf, hnil⟩ := Option.bind_eq_some_iff.mp hclose
  cases hnil
  have hsaved : d.saved = a.scope.length :: a.saved := by rw [hlink.saved, hc']
  rw [Linker.step, hsaved] at hf
  cases hf
  refine ⟨⟨?_, hmatch'.ndecls, hmatch'.nlabels, hmatch'.blocks⟩, rfl, ?_, ?_, ?_, ?_, ?_⟩
  · show d.scope.take a.scope.length = scope
    rw [hmatch'.scope, h.scope]
    exact List.take_left
  · exact hlink.kept.trans (by rw [hc'])
  · exact (by rw [hc'] : a.labelScopes = c.labelScopes) ▸ hlink.labels
  · exact hlink.gotos.trans (by rw [hc'])
  · have hres := hlink.resolved
    rw [hc'] at hres
    exact hres
  · have hwait := hlink.waiting
    rw [hc'] at hwait
    exact hwait

end Blocks

/-! ## The whole tree -/

section Tree

theorem Matches.idle {env : List LabelTable} {scope : List Nat} {nl nd : Nat}
    {a a' : Linker} (h : Matches env scope nl nd a) (hrun : Linker.run [] a = some a') :
    Matches env (scope ++ []) (nl + 0) (nd + 0) a' ∧ Linked env [] a a' := by
  cases hrun
  rw [List.append_nil]
  exact ⟨h, .refl env a⟩

theorem gap_cons {env : List LabelTable} {t past rest : LabelTable} {nl hi hi' : Nat}
    (hgap : Gap env nl hi) (hle : hi' ≤ hi) (ht : t = past ++ rest)
    (hpast : ∀ q ∈ past, q.2.num < nl) (hrest : ∀ q ∈ rest, hi' ≤ q.2.num) :
    Gap (t :: env) nl hi' := by
  intro t' ht' name p hp
  rcases List.mem_cons.mp ht' with rfl | ht'
  · have hmem := mem_of_lookup hp
    rw [ht] at hmem
    rcases List.mem_append.mp hmem with hmem | hmem
    · exact Or.inl (hpast _ hmem)
    · exact Or.inr (hrest _ hmem)
  · exact hgap.mono (Nat.le_refl _) hle t' ht' name p hp

theorem past_snoc {past : LabelTable} {nl : Nat} {x : Name × LabelPlace}
    (hpast : ∀ q ∈ past, q.2.num < nl) (hx : x.2.num = nl) :
    ∀ q ∈ past ++ [x], q.2.num < nl + 1 := by
  intro q hq
  rcases List.mem_append.mp hq with hq | hq
  · exact Nat.lt_succ_of_lt (hpast q hq)
  · cases List.mem_singleton.mp hq
    exact hx ▸ Nat.lt_succ_self _

mutual

theorem Stmt.link {env : List LabelTable} {scope : List Nat} {nl nd : Nat} {a a' : Linker}
    (h : Matches env scope nl nd a) : ∀ s : Stmt,
      Gap env nl (nl + labelsIn s.labelEvents) → Linker.run s.labelEvents a = some a' →
        Matches env (scope ++ s.declared nd) (nl + labelsIn s.labelEvents)
            (nd + declsIn s.labelEvents) a' ∧
          Linked env (s.places env scope nl nd) a a'
  | .localDecl names _, _, hrun => by
      obtain ⟨b, hb, hnil⟩ := Option.bind_eq_some_iff.mp hrun
      cases hnil
      exact h.declare hb
  | .localFunction _ _, _, hrun => by
      obtain ⟨b, hb, hnil⟩ := Option.bind_eq_some_iff.mp hrun
      cases hnil
      exact h.declare hb
  | .while _ body, hgap, hrun => by
      show Matches env (scope ++ []) _ _ a' ∧ _
      rw [List.append_nil]
      exact body.link h true hgap hrun
  | .repeat body _, hgap, hrun => by
      show Matches env (scope ++ []) _ _ a' ∧ _
      rw [List.append_nil]
      exact body.link h false hgap hrun
  | .doBlock body, hgap, hrun => by
      show Matches env (scope ++ []) _ _ a' ∧ _
      rw [List.append_nil]
      exact body.link h true hgap hrun
  | .forNum _ _ _ _ body, hgap, hrun => by
      have hl : labelsIn (.openScope :: .declare 1 :: (body.labelEvents true ++ [.closeScope])) =
          labelsIn (body.labelEvents true) := by
        simp only [labelsIn, labelsIn_append, Nat.add_zero]
      have hd : declsIn (.openScope :: .declare 1 :: (body.labelEvents true ++ [.closeScope])) =
          1 + declsIn (body.labelEvents true) := by
        simp only [declsIn, declsIn_append, Nat.add_zero]
      rw [Stmt.labelEvents] at hgap hrun
      show Matches env (scope ++ []) _ _ a' ∧ _
      rw [List.append_nil, Stmt.labelEvents, Stmt.places, hl, hd, ← Nat.add_assoc]
      rw [hl] at hgap
      exact h.inScope hrun fun b c hb hc => (body.link hb true hgap hc)
  | .forIn names _ body, hgap, hrun => by
      have hl : labelsIn (.openScope :: .declare names.length ::
          (body.labelEvents true ++ [.closeScope])) = labelsIn (body.labelEvents true) := by
        simp only [labelsIn, labelsIn_append, Nat.add_zero]
      have hd : declsIn (.openScope :: .declare names.length ::
          (body.labelEvents true ++ [.closeScope])) =
          names.length + declsIn (body.labelEvents true) := by
        simp only [declsIn, declsIn_append, Nat.add_zero]
      rw [Stmt.labelEvents] at hgap hrun
      show Matches env (scope ++ []) _ _ a' ∧ _
      rw [List.append_nil, Stmt.labelEvents, Stmt.places, hl, hd, ← Nat.add_assoc]
      rw [hl] at hgap
      exact h.inScope hrun fun b c hb hc => (body.link hb true hgap hc)
  | .ifs branches none, hgap, hrun => by
      show Matches env (scope ++ []) _ _ a' ∧ _
      rw [List.append_nil]
      exact branchesLink h branches hgap hrun
  | .ifs branches (some body), hgap, hrun => by
      show Matches env (scope ++ []) _ _ a' ∧ _
      rw [List.append_nil]
      rw [Stmt.labelEvents, labelsIn_append] at hgap
      rw [Stmt.labelEvents, Linker.run_append] at hrun
      obtain ⟨b, hb, hbody⟩ := Option.bind_eq_some_iff.mp hrun
      obtain ⟨hmatch, hlink⟩ :=
        branchesLink h branches (hgap.mono (Nat.le_refl _) (by omega)) hb
      obtain ⟨hmatch', hlink'⟩ :=
        body.link hmatch true (hgap.mono (Nat.le_add_right _ _) (by omega)) hbody
      rw [Stmt.labelEvents, labelsIn_append, declsIn_append, ← Nat.add_assoc, ← Nat.add_assoc]
      exact ⟨hmatch', hlink.trans hlink'⟩
  | .goto _, _, hrun | .break, _, hrun | .label _, _, hrun | .assign _ _, _, hrun
  | .return _, _, hrun | .callStmt _, _, hrun | .functionDecl _ _ _, _, hrun => h.idle hrun

theorem branchesLink {env : List LabelTable} {scope : List Nat} {nl nd : Nat}
    {a a' : Linker} (h : Matches env scope nl nd a) : ∀ branches : List Branch,
      Gap env nl (nl + labelsIn (branchesLabelEvents branches)) →
        Linker.run (branchesLabelEvents branches) a = some a' →
        Matches env scope (nl + labelsIn (branchesLabelEvents branches))
            (nd + declsIn (branchesLabelEvents branches)) a' ∧
          Linked env (branchesPlaces env scope nl nd branches) a a'
  | [], _, hrun => by
      cases hrun
      exact ⟨h, .refl env a⟩
  | .mk _ body :: branches, hgap, hrun => by
      rw [branchesLabelEvents, labelsIn_append] at hgap
      rw [branchesLabelEvents, Linker.run_append] at hrun
      obtain ⟨b, hb, hrest⟩ := Option.bind_eq_some_iff.mp hrun
      obtain ⟨hmatch, hlink⟩ := body.link h true (hgap.mono (Nat.le_refl _) (by omega)) hb
      obtain ⟨hmatch', hlink'⟩ :=
        branchesLink hmatch branches (hgap.mono (Nat.le_add_right _ _) (by omega)) hrest
      rw [branchesLabelEvents, labelsIn_append, declsIn_append, ← Nat.add_assoc,
        ← Nat.add_assoc]
      exact ⟨hmatch', hlink.trans hlink'⟩

theorem stmtsLink {env : List LabelTable} {t : LabelTable} (allowLast : Bool)
    {entry : List Nat} : ∀ (stmts : List Stmt) {past : LabelTable} {scope : List Nat}
      {nl nd : Nat} {a a' : Linker},
      t = past ++ blockTable allowLast entry nl nd scope stmts →
      (∀ q ∈ past, q.2.num < nl) → Matches (t :: env) scope nl nd a →
      Gap env nl (nl + labelsIn (stmtsLabelEvents allowLast stmts)) →
      a.blocks.head?.map OpenBlock.entry = some entry →
      Linker.run (stmtsLabelEvents allowLast stmts) a = some a' →
      ∃ scope', scope <+: scope' ∧
        Matches (t :: env) scope' (nl + labelsIn (stmtsLabelEvents allowLast stmts))
          (nd + declsIn (stmtsLabelEvents allowLast stmts)) a' ∧
        Linked (t :: env) (stmtsPlaces (t :: env) scope nl nd stmts) a a'
  | [], past, scope, nl, nd, a, a', _, _, h, _, _, hrun => by
      cases hrun
      exact ⟨scope, List.prefix_refl _, h, .refl _ a⟩
  | s :: stmts, past, scope, nl, nd, a, a', ht, hpast, h, hgap, hentry, hrun => by
      rcases s.label_or_goto_or_plain with ⟨name, rfl⟩ | ⟨name, rfl⟩ | hs
      · obtain ⟨b, hb, hrest⟩ := Option.bind_eq_some_iff.mp hrun
        have hcount : nl + labelsIn (stmtsLabelEvents allowLast (.label name :: stmts)) =
            nl + 1 + labelsIn (stmtsLabelEvents allowLast stmts) := by
          rw [stmtsLabelEvents, labelsIn]
          omega
        rw [hcount] at hgap ⊢
        rw [blockTable] at ht
        have hafter : ∀ q ∈ blockTable allowLast entry (nl + 1) nd scope stmts,
            nl + 1 ≤ q.2.num := fun q hq => (le_of_mem_blockTable _ _ _ _ _ _ q.1 q.2 hq).1
        obtain ⟨hmatch, hlink⟩ := h.label (hgap.mono (Nat.le_refl _) (Nat.le_add_right _ _))
          hentry ht hpast hafter hb
        obtain ⟨scope', hgrown, hmatch', hlink'⟩ := stmtsLink allowLast stmts
          (ht.trans (List.append_cons _ _ _)) (past_snoc hpast rfl) hmatch
          (hgap.mono (Nat.le_succ nl) (Nat.le_refl _)) (hlink.entry.trans hentry) hrest
        exact ⟨scope', hgrown, hmatch', hlink.trans hlink'⟩
      · obtain ⟨b, hb, hrest⟩ := Option.bind_eq_some_iff.mp hrun
        have ht' : t = past ++ blockTable allowLast entry nl nd scope stmts := by
          rw [ht]
          show past ++ blockTable allowLast entry nl nd (scope ++ []) stmts = _
          rw [List.append_nil]
        obtain ⟨hmatch, hlink⟩ := h.goto hb
        obtain ⟨scope', hgrown, hmatch', hlink'⟩ :=
          stmtsLink allowLast stmts ht' hpast hmatch hgap (hlink.entry.trans hentry) hrest
        exact ⟨scope', hgrown, hmatch', hlink.trans hlink'⟩
      · rw [stmtsLabelEvents_plain hs, labelsIn_append] at hgap
        rw [stmtsLabelEvents_plain hs, Linker.run_append] at hrun
        rw [blockTable_plain hs] at ht
        obtain ⟨b, hb, hrest⟩ := Option.bind_eq_some_iff.mp hrun
        have hafter : ∀ q ∈ blockTable allowLast entry (nl + labelsIn s.labelEvents)
            (nd + declsIn s.labelEvents) (scope ++ s.declared nd) stmts,
            nl + labelsIn s.labelEvents ≤ q.2.num :=
          fun q hq => (le_of_mem_blockTable _ _ _ _ _ _ q.1 q.2 hq).1
        have hgap' : Gap (t :: env) nl (nl + labelsIn s.labelEvents) :=
          gap_cons hgap (by omega) ht hpast hafter
        obtain ⟨hmatch, hlink⟩ := s.link h hgap' hb
        obtain ⟨scope', hgrown, hmatch', hlink'⟩ := stmtsLink allowLast stmts ht
          (fun q hq => Nat.lt_of_lt_of_le (hpast q hq) (Nat.le_add_right _ _)) hmatch
          (hgap.mono (Nat.le_add_right _ _) (by omega)) (hlink.entry.trans hentry) hrest
        rw [stmtsLabelEvents_plain hs, stmtsPlaces_plain hs, labelsIn_append, declsIn_append,
          ← Nat.add_assoc, ← Nat.add_assoc]
        exact ⟨scope', (List.prefix_append _ _).trans hgrown, hmatch', hlink.trans hlink'⟩

theorem Block.link {env : List LabelTable} {scope : List Nat} {nl nd : Nat} {a a' : Linker}
    (h : Matches env scope nl nd a) (allowLast : Bool) : ∀ b : Block,
      Gap env nl (nl + labelsIn (b.labelEvents allowLast)) →
        Linker.run (b.labelEvents allowLast) a = some a' →
        Matches env scope (nl + labelsIn (b.labelEvents allowLast))
            (nd + declsIn (b.labelEvents allowLast)) a' ∧
          Linked env (b.places allowLast env scope nl nd) a a'
  | .mk stmts, hgap, hrun => by
      have hl : labelsIn (Block.labelEvents allowLast (.mk stmts)) =
          labelsIn (stmtsLabelEvents allowLast stmts) := by
        simp only [Block.labelEvents, labelsIn, labelsIn_append, Nat.add_zero]
      have hd : declsIn (Block.labelEvents allowLast (.mk stmts)) =
          declsIn (stmtsLabelEvents allowLast stmts) := by
        simp only [Block.labelEvents, declsIn, declsIn_append, Nat.add_zero]
      rw [hl] at hgap
      rw [hl, hd]
      obtain ⟨b, c, hb, hleave, hclose⟩ := Linker.run_block hrun
      have hentry : (a.entered (stmts.filterMap Stmt.labelName?)).blocks.head?.map
          OpenBlock.entry = some scope := congrArg some h.scope
      obtain ⟨scope', hgrown, hmatch, hlink⟩ := stmtsLink allowLast stmts
        (List.nil_append _).symm (fun _ hq => nomatch hq) (h.entered allowLast stmts) hgap hentry hb
      refine Matches.left h.scope hmatch (fun name p hp => ?_) hgrown hlink hleave hclose
      exact (le_of_mem_blockTable _ _ _ _ _ _ name p (mem_of_lookup hp)).2

end

theorem functionLink {numparams : Nat} {body : Block} {a : Linker}
    (hrun : Linker.run (functionEvents numparams body) {} = some a) (hwaiting : a.waiting = [])
    {i : Nat} {g : GotoPlace} (hg : (functionPlaces numparams body)[i]? = some g) :
    ∃ p, g.taken = some p ∧ (i, p.num) ∈ a.resolved ∧
      a.labelScopes[p.num]? = some p.scope ∧ a.gotos[i]? = some g.entry := by
  have hstart : Linker.Sound {} := List.Perm.refl []
  have hsound : a.Sound := Linker.run_sound hstart hrun
  obtain ⟨b, hb, hbody⟩ := Option.bind_eq_some_iff.mp hrun
  have hempty : Matches [] [] 0 0 {} := ⟨rfl, rfl, rfl, .nil⟩
  obtain ⟨hmatch, hdeclare⟩ := hempty.declare hb
  rw [List.nil_append, Nat.zero_add] at hmatch
  obtain ⟨-, hlink⟩ := body.link hmatch true (fun _ ht => nomatch ht) hbody
  have hall : Linked [] (functionPlaces numparams body) {} a := hdeclare.trans hlink
  have hgotos : a.gotos = (functionPlaces numparams body).map GotoPlace.entry :=
    hall.gotos
  obtain ⟨R, hR, hRs⟩ := hall.resolved
  rw [Linker.Sound, hwaiting, List.map_nil, List.append_nil] at hsound
  have hi : i ∈ List.range a.gotos.length := by
    rw [List.mem_range, hgotos, List.length_map]
    exact (List.getElem?_eq_some_iff.mp hg).1
  obtain ⟨r, hr, rfl⟩ := List.mem_map.mp (hsound.mem_iff.mpr hi)
  obtain ⟨j, g', p, rfl, hg', htaken, hscope⟩ := hRs r (by rw [hR] at hr; exact hr)
  have hj : ([] : List GotoEntry).length + j = j := Nat.zero_add j
  dsimp only at hg hr ⊢
  rw [hj] at hg hr ⊢
  cases hg.symm.trans hg'
  refine ⟨p, htaken, hr, hscope, ?_⟩
  rw [hgotos, List.getElem?_map, hg']
  rfl

end Tree

end Luatier
