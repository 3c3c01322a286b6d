import LoxLang.Proofs.Grammar.Derivation

/-!
# Declarations in trees

A declaration binds its name in the scope in which it is run. In the trees that the grammar derives,
declarations stand in programs and blocks alone: no branch of a conditional is one
(`DerivesProgram.plainBranches`). So which names a program or a block declares can be told from its
own statements.
-/

namespace LoxLang

/-- The name that a statement declares in the scope in which it is run. -/
def Stmt.declaredName? : Stmt → Option String
  | .declare name _ => some name.lexeme
  | _ => none

theorem Stmt.declaredName?_eq_some_iff {s : Stmt} {name : String} :
    s.declaredName? = some name ↔
      ∃ token initial, s = .declare token initial ∧ token.lexeme = name := by
  cases s <;> simp [Stmt.declaredName?]

/-- The names that statements declare in the scope in which they are run. -/
def Program.declaredNames (body : Program) : List String := body.filterMap Stmt.declaredName?

/-- No branch of a conditional is a declaration, nor is one within. -/
inductive Stmt.PlainBranches : Stmt → Prop where
  | expression {e : Expr} : PlainBranches (.expression e)
  | print {e : Expr} : PlainBranches (.print e)
  | declare {name : Token} {initial : Option Expr} : PlainBranches (.declare name initial)
  | block {body : List Stmt} : (∀ s ∈ body, PlainBranches s) → PlainBranches (.block body)
  | conditional {condition : Expr} {yes : Stmt} {no : Option Stmt} :
      yes.declaredName? = none → PlainBranches yes → (∀ s ∈ no, s.declaredName? = none) →
      (∀ s ∈ no, PlainBranches s) → PlainBranches (.conditional condition yes no)

namespace Grammar

/-- Only the rules for declarations derive one. -/
theorem DerivesStmt.declares_nothing {rule : Rule} {ts : List Token} {s : Stmt}
    (h : DerivesStmt rule ts s) (hrule : rule ∉ [.declaration, .varDeclaration]) :
    s.declaredName? = none := by
  induction h with
  | choice hchoice _ ih =>
    cases hchoice with
    | varDeclaration | statement => exact absurd (by simp) hrule
    | ifStatement | printStatement | block | expressionStatement => exact ih (by decide)
  | declare | define => exact absurd (by simp) hrule
  | conditional | alternative | print | body | expression => rfl

theorem DerivesStmt.plainBranches {rule : Rule} {ts : List Token} {s : Stmt}
    (h : DerivesStmt rule ts s) : s.PlainBranches := by
  induction h with
  | choice _ _ ih => exact ih
  | declare | define => exact .declare
  | conditional _ _ _ _ hyes ih =>
    exact .conditional (hyes.declares_nothing (by decide)) ih (by simp) (by simp)
  | alternative _ _ _ _ hyes _ hno ihyes ihno =>
    have hnothing := hno.declares_nothing (by decide)
    exact .conditional (hyes.declares_nothing (by decide)) ihyes (by simpa using hnothing)
      (by simpa using ihno)
  | print => exact .print
  | body _ _ _ ih =>
    refine .block fun s hs => ?_
    obtain ⟨part, hpart, rfl⟩ := List.mem_map.mp hs
    exact ih part hpart
  | expression => exact .expression

/-- **No branch of a program is a declaration.** -/
theorem DerivesProgram.plainBranches {ts : List Token} {body : Program}
    (h : DerivesProgram ts body) : ∀ s ∈ body, s.PlainBranches := by
  obtain ⟨parts, hparts, rfl, rfl⟩ := h
  intro s hs
  obtain ⟨part, hpart, rfl⟩ := List.mem_map.mp hs
  exact (hparts part hpart).plainBranches

end Grammar

end LoxLang
