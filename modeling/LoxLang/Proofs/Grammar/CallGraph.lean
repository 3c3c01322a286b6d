import LoxLang.Grammar.Rules
import Mathlib.Data.List.Chain

/-!
# Which rules call which

The call graph of the rules, and the problems that each rule finds itself. A trail is genuine when
it is a path in that graph from the whole program inwards. What a trace says, the rules open and
the error, is as the graph has it when its trail is genuine and ends in a rule that finds the
problem (`Trace.RaisedOn`).
-/

namespace LoxLang.Grammar

/-- The rules that a rule calls. -/
def Rule.callees : Rule → List Rule
  | .program => [.declaration]
  | .declaration => [.varDeclaration, .statement]
  | .varDeclaration => [.expression]
  | .statement => [.ifStatement, .printStatement, .block, .expressionStatement]
  | .ifStatement => [.expression, .statement]
  | .printStatement => [.expression]
  | .block => [.declaration]
  | .expressionStatement => [.expression]
  | .expression => [.assignment]
  | .assignment => [.equality, .assignment]
  | .equality => [.comparison]
  | .comparison => [.term]
  | .term => [.factor]
  | .factor => [.unary]
  | .unary => [.unary, .primary]
  | .primary => [.expression]

/-- The problems that stop a rule by itself, and not through a rule that it calls. -/
def Rule.problems : Rule → List SyntaxProblem
  | .varDeclaration => [.expectedName, .expectedDeclarationEnd]
  | .ifStatement => [.expectedConditionOpen, .expectedConditionClose]
  | .printStatement => [.expectedValueEnd]
  | .block => [.expectedBlockClose]
  | .expressionStatement => [.expectedValueEnd]
  | .primary => [.expectedExpression, .expectedGroupClose]
  | _ => []

theorem ne_invalidTarget_of_mem_problems {rule : Rule} {problem : SyntaxProblem}
    (h : problem ∈ rule.problems) : problem ≠ .invalidTarget := by
  rintro rfl
  cases rule <;> simp [Rule.problems] at h

/-- The trail is a path in the call graph, from the whole program inwards. -/
def Trail.Genuine (trail : Trail) : Prop :=
  List.IsChain (fun inner outer => inner ∈ outer.callees) trail ∧ trail.getLast? = some .program

theorem Trail.Genuine.call {inner outer : Rule} {trail : Trail} (hcall : inner ∈ outer.callees)
    (h : Trail.Genuine (outer :: trail)) : Trail.Genuine (inner :: outer :: trail) :=
  ⟨.cons_cons hcall h.1, by rw [List.getLast?_cons_cons, h.2]⟩

/-- The error arose on the trail or further inwards: from the trail on the rules open are a path,
and the innermost of them finds such problems itself. -/
def Trace.RaisedOn (trail : Trail) (trace : Trace) : Prop :=
  trail <:+ trace.trail ∧ (trail.Genuine → trace.trail.Genuine) ∧
    ∃ rule outer, trace.trail = rule :: outer ∧ trace.error.problem ∈ rule.problems

/-- What arose in a rule arose in the rule that called it. -/
theorem Trace.RaisedOn.call {inner outer : Rule} {trail : Trail} {trace : Trace}
    (h : trace.RaisedOn (inner :: outer :: trail)) (hcall : inner ∈ outer.callees) :
    trace.RaisedOn (outer :: trail) :=
  ⟨(List.suffix_cons _ _).trans h.1, fun hgenuine => h.2.1 (hgenuine.call hcall), h.2.2⟩

theorem Trace.raisedOn_self {rule : Rule} {trail : Trail} {error : SyntaxError}
    (h : error.problem ∈ rule.problems) : Trace.RaisedOn (rule :: trail) ⟨rule :: trail, error⟩ :=
  ⟨List.suffix_refl _, id, rule, trail, rfl, h⟩

theorem Trace.RaisedOn.ne_invalidTarget {trail : Trail} {trace : Trace} (h : trace.RaisedOn trail) :
    trace.error.problem ≠ .invalidTarget := by
  obtain ⟨-, -, rule, -, -, hproblem⟩ := h
  exact ne_invalidTarget_of_mem_problems hproblem

end LoxLang.Grammar
