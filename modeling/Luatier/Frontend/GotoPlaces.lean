import Luatier.Frontend.Linker

/-!
# The labels that gotos mean

The tree is read once for the events of the linker, and once for the rules of
the language: a goto means the label of its name in the innermost block around
it that declares one.
-/

namespace Luatier

/-! ## Events -/

mutual

def Stmt.labelEvents : Stmt → List LabelEvent
  | .localDecl names _ => [.declare names.length]
  | .localFunction _ _ => [.declare 1]
  | .while _ body => body.labelEvents true
  | .repeat body _ => body.labelEvents false
  | .forNum _ _ _ _ body =>
      .openScope :: .declare 1 :: (body.labelEvents true ++ [.closeScope])
  | .forIn names _ body =>
      .openScope :: .declare names.length :: (body.labelEvents true ++ [.closeScope])
  | .ifs branches none => branchesLabelEvents branches
  | .ifs branches (some body) => branchesLabelEvents branches ++ body.labelEvents true
  | .doBlock body => body.labelEvents true
  | _ => []

def branchesLabelEvents : List Branch → List LabelEvent
  | [] => []
  | .mk _ body :: branches => body.labelEvents true ++ branchesLabelEvents branches

def stmtsLabelEvents (allowLast : Bool) : List Stmt → List LabelEvent
  | [] => []
  | .label name :: stmts =>
      .label name (allowLast && stmts.all Stmt.isLabel) :: stmtsLabelEvents allowLast stmts
  | .goto name :: stmts => .goto name :: stmtsLabelEvents allowLast stmts
  | s :: stmts => s.labelEvents ++ stmtsLabelEvents allowLast stmts

def Block.labelEvents (allowLast : Bool) : Block → List LabelEvent
  | .mk stmts =>
      .openScope :: .enter (stmts.filterMap Stmt.labelName?) ::
        (stmtsLabelEvents allowLast stmts ++ [.leave, .closeScope])

end

def functionEvents (numparams : Nat) (body : Block) : List LabelEvent :=
  .declare numparams :: body.labelEvents true

def labelsIn : List LabelEvent → Nat
  | [] => 0
  | .label _ _ :: es => labelsIn es + 1
  | _ :: es => labelsIn es

def declsIn : List LabelEvent → Nat
  | [] => 0
  | .declare count :: es => count + declsIn es
  | _ :: es => declsIn es

@[simp] theorem labelsIn_append (es fs : List LabelEvent) :
    labelsIn (es ++ fs) = labelsIn es + labelsIn fs := by
  induction es with
  | nil => exact (Nat.zero_add _).symm
  | cons e es ih => cases e <;> simp [labelsIn, ih, Nat.add_right_comm]

@[simp] theorem declsIn_append (es fs : List LabelEvent) :
    declsIn (es ++ fs) = declsIn es + declsIn fs := by
  induction es with
  | nil => exact (Nat.zero_add _).symm
  | cons e es ih => cases e <;> simp [declsIn, ih, Nat.add_assoc]

/-! ## The rules -/

structure LabelPlace where
  num : Nat
  scope : List Nat
  deriving DecidableEq, Repr

abbrev LabelTable := List (Name × LabelPlace)

/-- A goto among the blocks around it, when `seen` labels stand before it. -/
structure GotoPlace where
  label : Name
  scope : List Nat
  seen : Nat
  env : List LabelTable

def GotoPlace.entry (g : GotoPlace) : GotoEntry := ⟨g.seen, g.scope⟩

def Stmt.declared (nd : Nat) : Stmt → List Nat
  | .localDecl names _ => List.range' nd names.length
  | .localFunction _ _ => [nd]
  | _ => []

/-- The labels of a block, from label number `nl` and local number `nd` on. -/
def blockTable (allowLast : Bool) (entry : List Nat) :
    Nat → Nat → List Nat → List Stmt → LabelTable
  | _, _, _, [] => []
  | nl, nd, scope, .label name :: stmts =>
      (name, ⟨nl, if allowLast && stmts.all Stmt.isLabel then entry else scope⟩) ::
        blockTable allowLast entry (nl + 1) nd scope stmts
  | nl, nd, scope, s :: stmts =>
      blockTable allowLast entry (nl + labelsIn s.labelEvents) (nd + declsIn s.labelEvents)
        (scope ++ s.declared nd) stmts

mutual

def Stmt.places (env : List LabelTable) (scope : List Nat) (nl nd : Nat) :
    Stmt → List GotoPlace
  | .while _ body => body.places true env scope nl nd
  | .repeat body _ => body.places false env scope nl nd
  | .forNum _ _ _ _ body => body.places true env (scope ++ [nd]) nl (nd + 1)
  | .forIn names _ body =>
      body.places true env (scope ++ List.range' nd names.length) nl (nd + names.length)
  | .ifs branches none => branchesPlaces env scope nl nd branches
  | .ifs branches (some body) =>
      branchesPlaces env scope nl nd branches ++
        body.places true env scope (nl + labelsIn (branchesLabelEvents branches))
          (nd + declsIn (branchesLabelEvents branches))
  | .doBlock body => body.places true env scope nl nd
  | _ => []

def branchesPlaces (env : List LabelTable) (scope : List Nat) (nl nd : Nat) :
    List Branch → List GotoPlace
  | [] => []
  | .mk _ body :: branches =>
      body.places true env scope nl nd ++
        branchesPlaces env scope (nl + labelsIn (body.labelEvents true))
          (nd + declsIn (body.labelEvents true)) branches

def stmtsPlaces (env : List LabelTable) (scope : List Nat) (nl nd : Nat) :
    List Stmt → List GotoPlace
  | [] => []
  | .label _ :: stmts => stmtsPlaces env scope (nl + 1) nd stmts
  | .goto name :: stmts => ⟨name, scope, nl, env⟩ :: stmtsPlaces env scope nl nd stmts
  | s :: stmts =>
      s.places env scope nl nd ++
        stmtsPlaces env (scope ++ s.declared nd) (nl + labelsIn s.labelEvents)
          (nd + declsIn s.labelEvents) stmts

def Block.places (allowLast : Bool) (env : List LabelTable) (scope : List Nat)
    (nl nd : Nat) : Block → List GotoPlace
  | .mk stmts =>
      stmtsPlaces (blockTable allowLast scope nl nd scope stmts :: env) scope nl nd stmts

end

def Stmt.isPlain : Stmt → Bool
  | .label _ => false
  | .goto _ => false
  | _ => true

theorem Stmt.label_or_goto_or_plain (s : Stmt) :
    (∃ name, s = .label name) ∨ (∃ name, s = .goto name) ∨ s.isPlain = true := by
  cases s with
  | label name => exact Or.inl ⟨name, rfl⟩
  | goto name => exact Or.inr (Or.inl ⟨name, rfl⟩)
  | _ => exact Or.inr (Or.inr rfl)

section Plain

variable {s : Stmt} {stmts : List Stmt}

theorem stmtsLabelEvents_plain (hs : s.isPlain = true) {allowLast : Bool} :
    stmtsLabelEvents allowLast (s :: stmts) =
      s.labelEvents ++ stmtsLabelEvents allowLast stmts := by
  cases s <;> first | rfl | exact nomatch hs

theorem blockTable_plain (hs : s.isPlain = true) {allowLast : Bool}
    {entry scope : List Nat} {nl nd : Nat} :
    blockTable allowLast entry nl nd scope (s :: stmts) =
      blockTable allowLast entry (nl + labelsIn s.labelEvents) (nd + declsIn s.labelEvents)
        (scope ++ s.declared nd) stmts := by
  cases s <;> first | rfl | exact nomatch hs

theorem stmtsPlaces_plain (hs : s.isPlain = true) {env : List LabelTable}
    {scope : List Nat} {nl nd : Nat} :
    stmtsPlaces env scope nl nd (s :: stmts) =
      s.places env scope nl nd ++
        stmtsPlaces env (scope ++ s.declared nd) (nl + labelsIn s.labelEvents)
          (nd + declsIn s.labelEvents) stmts := by
  cases s <;> first | rfl | exact nomatch hs

end Plain

def functionPlaces (numparams : Nat) (body : Block) : List GotoPlace :=
  body.places true [] (List.range' 0 numparams) 0 numparams

namespace GotoPlace

variable (g : GotoPlace)

def target : Option LabelPlace := g.env.findSome? (·.lookup g.label)

/-- The label of that name before the goto, in the innermost block with one. -/
def early : Option LabelPlace :=
  g.env.findSome? fun t => (t.lookup g.label).filter fun p => decide (p.num < g.seen)

def ownHas : Bool :=
  match g.env with
  | own :: _ => (own.lookup g.label).isSome
  | [] => false

/--
The goto is not in the block of its label, the label comes after it, and a block
further out has a label of that name before it.
-/
def stolen : Bool := !g.ownHas && g.early.isSome && g.early != g.target

def taken : Option LabelPlace := if g.ownHas then g.target else g.early.or g.target

theorem taken_eq_target (h : g.stolen = false) : g.taken = g.target := by
  rw [taken]
  cases hown : g.ownHas with
  | true => rfl
  | false =>
      cases hearly : g.early with
      | none => rfl
      | some p =>
          have hsame : g.early = g.target := by simpa [stolen, hown, hearly] using h
          rw [← hsame, hearly]
          rfl

end GotoPlace

end Luatier
