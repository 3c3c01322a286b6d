import LoxLang.Tree.Basic

/-!
# Induction on statements

A statement holds others in a list and in an option. The principle gives the hypothesis for every
statement held.
-/

namespace LoxLang

/-- A property of statements that passes from the statements held to the one that holds them is one
of all statements. -/
theorem Stmt.induct {P : Stmt → Prop} (expression : ∀ e, P (.expression e))
    (print : ∀ e, P (.print e)) (declare : ∀ name initial, P (.declare name initial))
    (block : ∀ body, (∀ s ∈ body, P s) → P (.block body))
    (conditional : ∀ condition yes no, P yes → (∀ s ∈ no, P s) →
      P (.conditional condition yes no)) :
    ∀ s : Stmt, P s
  | .expression e => expression e
  | .print e => print e
  | .declare name initial => declare name initial
  | .block body => block body fun s hs =>
    have : sizeOf s < sizeOf body := List.sizeOf_lt_of_mem hs
    Stmt.induct expression print declare block conditional s
  | .conditional condition yes no => conditional condition yes no
    (Stmt.induct expression print declare block conditional yes) fun s hs =>
      have : sizeOf s < sizeOf no := by
        rw [Option.mem_def.mp hs]
        simp
      Stmt.induct expression print declare block conditional s
termination_by s => sizeOf s

end LoxLang
