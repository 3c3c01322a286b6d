import LoxLang.Proofs.Tree.Induction
import Mathlib.Data.List.Basic

/-!
# The names in a tree

Which names occur in a tree, to which of them it assigns, and which it declares in the scope in which
it is run. An assignment is an expression and may stand anywhere in one.
-/

namespace LoxLang

theorem append_subset_append {first second first' second' : List String} (h : first ⊆ first')
    (h' : second ⊆ second') : first ++ second ⊆ first' ++ second' :=
  List.append_subset.mpr
    ⟨List.subset_append_of_subset_left _ h, List.subset_append_of_subset_right _ h'⟩

/-! ### Expressions -/

/-- The names that occur in an expression. -/
def Expr.names : Expr → List String
  | .literal _ => []
  | .grouping inner => inner.names
  | .unary _ _ right => right.names
  | .binary left _ _ right => left.names ++ right.names
  | .variable name => [name.lexeme]
  | .assign name value => name.lexeme :: value.names

/-- The names to which an expression assigns. -/
def Expr.assigned : Expr → List String
  | .literal _ => []
  | .grouping inner => inner.assigned
  | .unary _ _ right => right.assigned
  | .binary left _ _ right => left.assigned ++ right.assigned
  | .variable _ => []
  | .assign name value => name.lexeme :: value.assigned

theorem Expr.assigned_subset_names (e : Expr) : e.assigned ⊆ e.names := by
  induction e with
  | literal _ => exact List.nil_subset _
  | «variable» _ => exact List.nil_subset _
  | grouping _ ih => exact ih
  | unary _ _ _ ih => exact ih
  | binary _ _ _ _ ihleft ihright => exact append_subset_append ihleft ihright
  | assign name _ ih => exact List.cons_subset_cons name.lexeme ih

/-! ### Statements -/

mutual

/-- What is gathered from the expressions of a statement and from the names that it declares, at any
depth. -/
def Stmt.gather (ofExpr : Expr → List String) (ofName : Token → List String) : Stmt → List String
  | .expression e => ofExpr e
  | .print e => ofExpr e
  | .declare name none => ofName name
  | .declare name (some initial) => ofName name ++ ofExpr initial
  | .block body => Stmt.gatherAll ofExpr ofName body
  | .conditional condition yes none => ofExpr condition ++ yes.gather ofExpr ofName
  | .conditional condition yes (some no) =>
    ofExpr condition ++ (yes.gather ofExpr ofName ++ no.gather ofExpr ofName)

/-- What is gathered from statements. -/
def Stmt.gatherAll (ofExpr : Expr → List String) (ofName : Token → List String) :
    List Stmt → List String
  | [] => []
  | s :: rest => s.gather ofExpr ofName ++ Stmt.gatherAll ofExpr ofName rest

end

/-- The names that occur in a statement. -/
def Stmt.names : Stmt → List String := Stmt.gather Expr.names fun name => [name.lexeme]

/-- The names to which a statement assigns. -/
def Stmt.assigned : Stmt → List String := Stmt.gather Expr.assigned fun _ => []

/-- The names that a statement may declare in the scope in which it is run: those of declarations
that stand in no block. -/
def Stmt.declared : Stmt → List String
  | .declare name _ => [name.lexeme]
  | .conditional _ yes none => yes.declared
  | .conditional _ yes (some no) => yes.declared ++ no.declared
  | _ => []

theorem Stmt.gatherAll_eq_flatMap (ofExpr : Expr → List String) (ofName : Token → List String)
    (body : List Stmt) :
    Stmt.gatherAll ofExpr ofName body = body.flatMap (Stmt.gather ofExpr ofName) := by
  induction body with
  | nil => rfl
  | cons s rest ih => rw [Stmt.gatherAll, ih, List.flatMap_cons]

/-- What is gathered from a statement of a block is gathered from the block. -/
theorem Stmt.gather_subset_block (ofExpr : Expr → List String) (ofName : Token → List String)
    {s : Stmt} {body : List Stmt} (h : s ∈ body) :
    s.gather ofExpr ofName ⊆ (Stmt.block body).gather ofExpr ofName := by
  rw [Stmt.gather, Stmt.gatherAll_eq_flatMap]
  exact fun name hname => List.mem_flatMap.mpr ⟨s, h, hname⟩

theorem Stmt.declared_subset_names (s : Stmt) : s.declared ⊆ s.names := by
  induction s using Stmt.induct with
  | expression e => exact List.nil_subset _
  | print e => exact List.nil_subset _
  | declare name initial =>
    cases initial with
    | none => exact List.Subset.refl _
    | some initial => exact List.subset_append_left _ _
  | block body _ => exact List.nil_subset _
  | conditional condition yes no ihyes ihno =>
    cases no with
    | none => exact List.subset_append_of_subset_right _ ihyes
    | some no =>
      exact List.subset_append_of_subset_right _ (append_subset_append ihyes (ihno no rfl))

theorem Stmt.assigned_subset_names (s : Stmt) : s.assigned ⊆ s.names := by
  induction s using Stmt.induct with
  | expression e => exact e.assigned_subset_names
  | print e => exact e.assigned_subset_names
  | declare name initial =>
    cases initial with
    | none => exact List.nil_subset _
    | some initial =>
      exact List.subset_append_of_subset_right _ initial.assigned_subset_names
  | block body ih =>
    simp only [Stmt.assigned, Stmt.names, Stmt.gather, Stmt.gatherAll_eq_flatMap]
    intro name hname
    obtain ⟨s, hs, hassigned⟩ := List.mem_flatMap.mp hname
    exact List.mem_flatMap.mpr ⟨s, hs, ih s hs hassigned⟩
  | conditional condition yes no ihyes ihno =>
    have hcondition := condition.assigned_subset_names
    cases no with
    | none => exact append_subset_append hcondition ihyes
    | some no =>
      exact append_subset_append hcondition (append_subset_append ihyes (ihno no rfl))

end LoxLang
