import LoxLang.Proofs.Grammar.LenientReading
import LoxLang.Proofs.Grammar.Spelling

/-!
# Where the tokens of a tree come from

A tree keeps the tokens of its operators and names. In a tree that was read they are tokens of the
text that was read, each at a place that fits it: an operator node keeps a token that spells the
operator, and a name node an identifier (`drawnFrom_of_parse`).
-/

namespace LoxLang

/-- The tokens that an expression keeps are among the given ones. Those of operators spell them, and
those of names are identifiers. -/
def Expr.DrawnFrom (tokens : List Token) : Expr → Prop
  | .literal _ => True
  | .grouping inner => inner.DrawnFrom tokens
  | .variable name => name ∈ tokens ∧ name.kind = .identifier
  | .assign name value => (name ∈ tokens ∧ name.kind = .identifier) ∧ value.DrawnFrom tokens
  | .unary op token right => (token ∈ tokens ∧ token.kind = op.tokenKind) ∧ right.DrawnFrom tokens
  | .binary left op token right =>
    left.DrawnFrom tokens ∧ (token ∈ tokens ∧ token.kind = op.tokenKind) ∧ right.DrawnFrom tokens

/-- The same for all expressions of a statement, and for the names that it declares. -/
inductive Stmt.DrawnFrom (tokens : List Token) : Stmt → Prop where
  | expression {e : Expr} : e.DrawnFrom tokens → DrawnFrom tokens (.expression e)
  | print {e : Expr} : e.DrawnFrom tokens → DrawnFrom tokens (.print e)
  | declare {name : Token} {initial : Option Expr} :
      name ∈ tokens ∧ name.kind = .identifier → (∀ e ∈ initial, e.DrawnFrom tokens) →
      DrawnFrom tokens (.declare name initial)
  | block {body : List Stmt} : (∀ s ∈ body, DrawnFrom tokens s) → DrawnFrom tokens (.block body)
  | conditional {condition : Expr} {yes : Stmt} {no : Option Stmt} :
      condition.DrawnFrom tokens → DrawnFrom tokens yes → (∀ s ∈ no, DrawnFrom tokens s) →
      DrawnFrom tokens (.conditional condition yes no)

namespace Grammar

theorem DerivesExpr.drawnFrom {rule : Rule} {ts tokens : List Token} {e : Expr}
    (h : DerivesExpr rule ts e) (hts : ∀ token ∈ ts, token ∈ tokens) : e.DrawnFrom tokens := by
  induction h with
  | expression _ ih => exact ih hts
  | value _ ih => exact ih hts
  | operand _ ih => exact ih hts
  | primary _ ih => exact ih hts
  | assign _ _ _ ihtarget ihvalue =>
    obtain ⟨htarget, -, hvalue⟩ :=
      List.forall_mem_append.mp hts |>.imp_right List.forall_mem_cons.mp
    exact ⟨ihtarget htarget, ihvalue hvalue⟩
  | operation _ hop _ ihleft ihright =>
    obtain ⟨hleft, hoperator, hright⟩ :=
      List.forall_mem_append.mp hts |>.imp_right List.forall_mem_cons.mp
    exact ⟨ihleft hleft, ⟨hoperator, hop.tokenKind.symm⟩, ihright hright⟩
  | unary hprefixed _ ih =>
    obtain ⟨hoperator, hright⟩ := List.forall_mem_cons.mp hts
    exact ⟨⟨hoperator, hprefixed.tokenKind.symm⟩, ih hright⟩
  | number | string | truth | falsity | nil => trivial
  | name hkind => exact ⟨hts _ (List.mem_singleton_self _), hkind⟩
  | grouping _ _ _ ih =>
    exact ih fun token htoken => hts token (List.mem_cons_of_mem _ (List.mem_append_left _ htoken))

/-- Semicolons may be missing: no tree keeps one. -/
theorem DerivesExpr.drawnFrom_of_ne_semicolon {rule : Rule} {ts tokens : List Token} {e : Expr}
    (h : DerivesExpr rule ts e) (hts : ∀ token ∈ ts, token.kind ≠ .semicolon → token ∈ tokens) :
    e.DrawnFrom tokens :=
  h.drawnFrom fun token htoken => hts token htoken (ne_of_inExpr (h.inExpr token htoken) rfl)

theorem DerivesStmt.drawnFrom {rule : Rule} {ts tokens : List Token} {s : Stmt}
    (h : DerivesStmt rule ts s) (hts : ∀ token ∈ ts, token.kind ≠ .semicolon → token ∈ tokens) :
    s.DrawnFrom tokens := by
  induction h with
  | choice _ _ ih => exact ih hts
  | declare _ hname _ =>
    simp only [List.forall_mem_cons] at hts
    exact .declare ⟨hts.2.1 (by simp [hname]), hname⟩ (by simp)
  | define _ hname _ hinitial _ =>
    simp only [List.forall_mem_cons, List.forall_mem_append] at hts
    refine .declare ⟨hts.2.1 (by simp [hname]), hname⟩ fun e he => ?_
    rw [← Option.some.inj he]
    exact hinitial.drawnFrom_of_ne_semicolon hts.2.2.2.1
  | conditional _ _ hcondition _ _ ih =>
    simp only [List.forall_mem_cons, List.forall_mem_append] at hts
    exact .conditional (hcondition.drawnFrom_of_ne_semicolon hts.2.2.1) (ih hts.2.2.2.2) (by simp)
  | alternative _ _ hcondition _ _ _ _ ihyes ihno =>
    simp only [List.forall_mem_cons, List.forall_mem_append] at hts
    refine .conditional (hcondition.drawnFrom_of_ne_semicolon hts.2.2.1)
      (ihyes hts.2.2.2.2.1) fun s hs => ?_
    rw [← Option.some.inj hs]
    exact ihno hts.2.2.2.2.2.2
  | print _ hvalue _ =>
    simp only [List.forall_mem_cons, List.forall_mem_append] at hts
    exact .print (hvalue.drawnFrom_of_ne_semicolon hts.2.1)
  | body _ _ _ ih =>
    simp only [List.forall_mem_cons, List.forall_mem_append] at hts
    refine .block fun s hs => ?_
    obtain ⟨part, hpart, rfl⟩ := List.mem_map.mp hs
    exact ih part hpart fun token htoken =>
      hts.2.1 token (List.mem_flatMap.mpr ⟨part, hpart, htoken⟩)
  | expression hvalue _ =>
    simp only [List.forall_mem_append] at hts
    exact .expression (hvalue.drawnFrom_of_ne_semicolon hts.1)

/-- **What was read keeps tokens of the text that was read**, at places that fit them. -/
theorem drawnFrom_of_parse {lenient : Bool} {tokens : List Token} {body : Program}
    (h : parse lenient tokens = .ok body) : ∀ s ∈ body, s.DrawnFrom tokens := by
  obtain ⟨ts, ⟨parts, hparts, rfl, rfl⟩, hts⟩ := exists_derivesProgram h
  intro s hs
  obtain ⟨part, hpart, rfl⟩ := List.mem_map.mp hs
  exact (hparts part hpart).drawnFrom fun token htoken =>
    hts token (List.mem_flatMap.mpr ⟨part, hpart, htoken⟩)

end Grammar

end LoxLang
