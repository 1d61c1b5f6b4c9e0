import Luatier.Frontend.Gotos

/-!
# Gotos and the ends of blocks

A function is a sequence of gotos and of ends of blocks.  A goto is judged by
the ends that come after it: by those of the blocks around it, or, as
`sema_analyze` does, by any that is not deeper than the goto.
-/

namespace Luatier

/-- The end of a block with its labels, at its depth in the function. -/
structure Closing where
  depth : Nat
  labels : BlockLabels

inductive BlockEvent where
  | goto (label : Name) (scope : Scope) (depth : Nat)
  | close (c : Closing)

mutual

def Stmt.events (depth : Nat) (scope : Scope) (site : Site) : Stmt → List BlockEvent
  | .goto label => [.goto label scope depth]
  | .while _ body => body.events true depth scope (0 :: site)
  | .repeat body _ => body.events false depth scope (0 :: site)
  | .forNum name _ _ _ body =>
      body.events true depth (scope ++ declare site [name]) (0 :: site)
  | .forIn names _ body =>
      body.events true depth (scope ++ declare site names) (0 :: site)
  | .ifs branches none => branchesEvents depth scope site 1 branches
  | .ifs branches (some body) =>
      branchesEvents depth scope site 1 branches ++
        body.events true depth scope (0 :: site)
  | .doBlock body => body.events true depth scope (0 :: site)
  | _ => []

def branchesEvents (depth : Nat) (scope : Scope) (site : Site) :
    Nat → List Branch → List BlockEvent
  | _, [] => []
  | i, .mk _ body :: branches =>
      body.events true depth scope (i :: site) ++
        branchesEvents depth scope site (i + 1) branches

def stmtsEvents (depth : Nat) (site : Site) : Nat → Scope → List Stmt → List BlockEvent
  | _, _, [] => []
  | i, scope, s :: stmts =>
      s.events depth scope (i :: site) ++
        stmtsEvents depth site (i + 1) (scope ++ s.declares (i :: site)) stmts

def Block.events (allowLast : Bool) (depth : Nat) (scope : Scope) (site : Site) :
    Block → List BlockEvent
  | .mk stmts =>
      stmtsEvents (depth + 1) site 0 scope stmts ++
        [.close ⟨depth + 1, blockLabels allowLast scope site 0 scope stmts⟩]

end

/-! ## Rules that no goto is needed for -/

mutual

def Stmt.tidy (inLoop : Bool) (scope : Scope) (site : Site) : Stmt → Bool
  | .break => inLoop
  | .while _ body => body.tidy true true scope (0 :: site)
  | .repeat body _ => body.tidy false true scope (0 :: site)
  | .forNum name _ _ _ body =>
      body.tidy true true (scope ++ declare site [name]) (0 :: site)
  | .forIn names _ body =>
      body.tidy true true (scope ++ declare site names) (0 :: site)
  | .ifs branches none => branchesTidy inLoop scope site 1 branches
  | .ifs branches (some body) =>
      branchesTidy inLoop scope site 1 branches &&
        body.tidy true inLoop scope (0 :: site)
  | .doBlock body => body.tidy true inLoop scope (0 :: site)
  | _ => true

def branchesTidy (inLoop : Bool) (scope : Scope) (site : Site) :
    Nat → List Branch → Bool
  | _, [] => true
  | i, .mk _ body :: branches =>
      body.tidy true inLoop scope (i :: site) &&
        branchesTidy inLoop scope site (i + 1) branches

def stmtsTidy (inLoop : Bool) (site : Site) : Nat → Scope → List Stmt → Bool
  | _, _, [] => true
  | i, scope, s :: stmts =>
      s.tidy inLoop scope (i :: site) &&
        stmtsTidy inLoop site (i + 1) (scope ++ s.declares (i :: site)) stmts

def Block.tidy (allowLast inLoop : Bool) (scope : Scope) (site : Site) : Block → Bool
  | .mk stmts =>
      decide ((blockLabels allowLast scope site 0 scope stmts).map Prod.fst).Nodup &&
        stmtsTidy inLoop site 0 scope stmts

end

/-! ## The places of gotos -/

structure GotoSite where
  label : Name
  scope : Scope
  depth : Nat
  later : List Closing

def closings : List BlockEvent → List Closing
  | [] => []
  | .goto _ _ _ :: es => closings es
  | .close c :: es => c :: closings es

def gotoSites (following : List Closing) : List BlockEvent → List GotoSite
  | [] => []
  | .goto label scope depth :: es =>
      ⟨label, scope, depth, closings es ++ following⟩ :: gotoSites following es
  | .close _ :: es => gotoSites following es

def enclosing : Nat → List Closing → List Closing
  | _, [] => []
  | depth, c :: cs =>
      if c.depth ≤ depth then c :: enclosing (c.depth - 1) cs else enclosing depth cs

namespace GotoSite

variable (g : GotoSite)

def target : Option Scope :=
  visibleLabel ((enclosing g.depth g.later).map Closing.labels) g.label

def found : Option Scope :=
  visibleLabel ((g.later.filter fun c => decide (c.depth ≤ g.depth)).map Closing.labels)
    g.label

def legal : Bool := gotoLegal g.target g.scope

def passes (locals : List Name) : Bool :=
  g.found.any fun needed => needed.names.all (locals ++ g.scope.names).contains

end GotoSite

def Function.sites (fn : Function) : List GotoSite :=
  gotoSites [] (fn.body.events true 0 [] [])

def Function.tidy (fn : Function) : Bool := fn.body.tidy true false [] []

theorem closings_append (es fs : List BlockEvent) :
    closings (es ++ fs) = closings es ++ closings fs := by
  induction es with
  | nil => rfl
  | cons e es ih => cases e <;> simp [closings, ih]

theorem gotoSites_append (following : List Closing) (es fs : List BlockEvent) :
    gotoSites following (es ++ fs) =
      gotoSites (closings fs ++ following) es ++ gotoSites following fs := by
  induction es with
  | nil => rfl
  | cons e es ih => cases e <;> simp [gotoSites, ih, closings_append]

/-! ## The rules, goto by goto -/

section Legal

mutual

theorem Stmt.depth_lt (depth : Nat) (scope : Scope) (site : Site) : ∀ s : Stmt,
    ∀ c ∈ closings (s.events depth scope site), depth < c.depth
  | .while _ body => body.depth_lt true depth scope _
  | .repeat body _ => body.depth_lt false depth scope _
  | .forNum _ _ _ _ body => body.depth_lt true depth _ _
  | .forIn _ _ body => body.depth_lt true depth _ _
  | .ifs branches none => branchesDepth_lt depth scope site 1 branches
  | .ifs branches (some body) => by
      rw [Stmt.events, closings_append]
      intro c hc
      rcases List.mem_append.mp hc with hc | hc
      · exact branchesDepth_lt depth scope site 1 branches c hc
      · exact body.depth_lt true depth scope _ c hc
  | .doBlock body => body.depth_lt true depth scope _
  | .goto _ | .break | .label _ | .localDecl _ _ | .assign _ _ | .return _
  | .callStmt _ | .functionDecl _ _ _ | .localFunction _ _ => fun _ hc => nomatch hc

theorem branchesDepth_lt (depth : Nat) (scope : Scope) (site : Site) :
    ∀ (i : Nat) (branches : List Branch),
      ∀ c ∈ closings (branchesEvents depth scope site i branches), depth < c.depth
  | _, [] => fun _ hc => nomatch hc
  | i, .mk _ body :: branches => by
      rw [branchesEvents, closings_append]
      intro c hc
      rcases List.mem_append.mp hc with hc | hc
      · exact body.depth_lt true depth scope _ c hc
      · exact branchesDepth_lt depth scope site (i + 1) branches c hc

theorem stmtsDepth_lt (depth : Nat) (site : Site) :
    ∀ (i : Nat) (scope : Scope) (stmts : List Stmt),
      ∀ c ∈ closings (stmtsEvents depth site i scope stmts), depth < c.depth
  | _, _, [] => fun _ hc => nomatch hc
  | i, scope, s :: stmts => by
      rw [stmtsEvents, closings_append]
      intro c hc
      rcases List.mem_append.mp hc with hc | hc
      · exact s.depth_lt depth scope _ c hc
      · exact stmtsDepth_lt depth site (i + 1) _ stmts c hc

theorem Block.depth_lt (allowLast : Bool) (depth : Nat) (scope : Scope) (site : Site) :
    ∀ b : Block, ∀ c ∈ closings (b.events allowLast depth scope site), depth < c.depth
  | .mk stmts => by
      rw [Block.events, closings_append]
      intro c hc
      rcases List.mem_append.mp hc with hc | hc
      · exact Nat.lt_of_succ_lt (stmtsDepth_lt (depth + 1) site 0 scope stmts c hc)
      · cases List.mem_singleton.mp hc
        exact Nat.lt_succ_self depth

end

theorem enclosing_append {depth : Nat} {cs : List Closing}
    (h : ∀ c ∈ cs, depth < c.depth) (ds : List Closing) :
    enclosing depth (cs ++ ds) = enclosing depth ds := by
  induction cs with
  | nil => rfl
  | cons c cs ih =>
      rw [List.cons_append, enclosing,
        if_neg (Nat.not_le.mpr (h c List.mem_cons_self))]
      exact ih fun c hc => h c (List.mem_cons_of_mem _ hc)

/-- The labels of the blocks around a place, read off the ends that follow. -/
def Around (depth : Nat) (following : List Closing) (env : List BlockLabels) : Prop :=
  (enclosing depth following).map Closing.labels = env

theorem Around.append {depth : Nat} {following cs : List Closing}
    {env : List BlockLabels} (h : Around depth following env)
    (hcs : ∀ c ∈ cs, depth < c.depth) : Around depth (cs ++ following) env := by
  rw [Around, enclosing_append hcs]
  exact h

theorem Around.cons {depth : Nat} {following : List Closing} {env : List BlockLabels}
    (h : Around depth following env) (labels : BlockLabels) :
    Around (depth + 1) (⟨depth + 1, labels⟩ :: following) (labels :: env) := by
  rw [Around, enclosing, if_pos (Nat.le_refl _), List.map_cons]
  exact congrArg _ h

def LegalBy (tidy : Bool) (sites : List GotoSite) : Bool :=
  tidy && sites.all GotoSite.legal

theorem LegalBy.append (p q : Bool) (s t : List GotoSite) :
    LegalBy (p && q) (s ++ t) = (LegalBy p s && LegalBy q t) := by
  rw [LegalBy, LegalBy, LegalBy, List.all_append]
  cases p <;> cases q <;> simp

mutual

theorem Stmt.legal_eq (inLoop : Bool) {depth : Nat} {following : List Closing}
    {env : List BlockLabels} (scope : Scope) (site : Site)
    (h : Around depth following env) : ∀ s : Stmt,
      s.legal env inLoop scope site =
        LegalBy (s.tidy inLoop scope site)
          (gotoSites following (s.events depth scope site))
  | .while _ body => body.legal_eq true true scope _ h
  | .repeat body _ => body.legal_eq false true scope _ h
  | .forNum _ _ _ _ body => body.legal_eq true true _ _ h
  | .forIn _ _ body => body.legal_eq true true _ _ h
  | .ifs branches none => branchesLegal_eq inLoop scope site h 1 branches
  | .ifs branches (some body) => by
      rw [Stmt.legal, Stmt.tidy, Stmt.events, gotoSites_append, LegalBy.append,
        body.legal_eq true inLoop scope _ h,
        branchesLegal_eq inLoop scope site (h.append (body.depth_lt true depth scope _))
          1 branches]
  | .doBlock body => body.legal_eq true inLoop scope _ h
  | .goto label => by
      show gotoLegal (visibleLabel env label) scope = _
      rw [← h]
      simp [LegalBy, Stmt.tidy, Stmt.events, gotoSites, GotoSite.legal, GotoSite.target,
        closings]
  | .break => (Bool.and_true _).symm
  | .label _ | .localDecl _ _ | .assign _ _ | .return _
  | .callStmt _ | .functionDecl _ _ _ | .localFunction _ _ => rfl

theorem branchesLegal_eq (inLoop : Bool) {depth : Nat} {following : List Closing}
    {env : List BlockLabels} (scope : Scope) (site : Site)
    (h : Around depth following env) : ∀ (i : Nat) (branches : List Branch),
      branchesLegal env inLoop scope site i branches =
        LegalBy (branchesTidy inLoop scope site i branches)
          (gotoSites following (branchesEvents depth scope site i branches))
  | _, [] => rfl
  | i, .mk _ body :: branches => by
      rw [branchesLegal, branchesTidy, branchesEvents, gotoSites_append, LegalBy.append,
        branchesLegal_eq inLoop scope site h (i + 1) branches,
        body.legal_eq true inLoop scope _
          (h.append (branchesDepth_lt depth scope site (i + 1) branches))]

theorem stmtsLegal_eq (inLoop : Bool) {depth : Nat} {following : List Closing}
    {env : List BlockLabels} (site : Site) (h : Around depth following env) :
    ∀ (i : Nat) (scope : Scope) (stmts : List Stmt),
      stmtsLegal env inLoop site i scope stmts =
        LegalBy (stmtsTidy inLoop site i scope stmts)
          (gotoSites following (stmtsEvents depth site i scope stmts))
  | _, _, [] => rfl
  | i, scope, s :: stmts => by
      rw [stmtsLegal, stmtsTidy, stmtsEvents, gotoSites_append, LegalBy.append,
        stmtsLegal_eq inLoop site h (i + 1) _ stmts,
        s.legal_eq inLoop scope _ (h.append (stmtsDepth_lt depth site (i + 1) _ stmts))]

theorem Block.legal_eq (allowLast inLoop : Bool) {depth : Nat}
    {following : List Closing} {env : List BlockLabels} (scope : Scope) (site : Site)
    (h : Around depth following env) : ∀ b : Block,
      b.legal allowLast env inLoop scope site =
        LegalBy (b.tidy allowLast inLoop scope site)
          (gotoSites following (b.events allowLast depth scope site))
  | .mk stmts => by
      rw [Block.legal, Block.tidy, Block.events, gotoSites_append]
      simp only [gotoSites, List.append_nil]
      rw [stmtsLegal_eq inLoop site (h.cons _) 0 scope stmts, LegalBy, LegalBy,
        Bool.and_assoc]
      rfl

end

theorem Function.legal_eq (fn : Function) :
    fn.legal = (fn.tidy && fn.sites.all GotoSite.legal) :=
  fn.body.legal_eq true false [] [] (show Around 0 [] [] from rfl)

end Legal

end Luatier
