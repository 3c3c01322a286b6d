import LoxLang.Proofs.Grammar.Completeness

/-!
# Two expressions that become one

A `-` may stand before an operand and between two. So where one expression ends and the next one
begins with `-`, the two are one expression as soon as nothing stands between them
(`DerivesExpr.join`). A statement that ends in the one takes in the other (`DerivesStmt.join`),
unless it is a declaration without a value.
-/

namespace LoxLang.Grammar

/-! ### Operators of one level -/

theorem Level.rule_injective {level other : Level} (h : level.rule = other.rule) :
    level = other := by
  cases level <;> cases other <;> simp_all [Level.rule]

/-- What is derived on a level is an operand, or what is derived on it with one more operator and
operand behind it. -/
theorem DerivesExpr.level_induct {level : Level} {P : List Token → Prop} {ts : List Token} {e : Expr}
    (h : DerivesExpr level.rule ts e)
    (operand : ∀ {ts : List Token} {e : Expr}, DerivesExpr level.operandRule ts e → P ts)
    (operation : ∀ {ts us : List Token} {operator : Token} {op : BinaryOp} {left right : Expr},
      DerivesExpr level.rule ts left → P ts → level.Infix operator.kind op →
      DerivesExpr level.operandRule us right → P (ts ++ operator :: us)) : P ts := by
  generalize hrule : level.rule = rule at h
  induction h with
  | operand hoperand =>
    obtain rfl := Level.rule_injective hrule
    exact operand hoperand
  | operation hleft hop hright ih _ =>
    obtain rfl := Level.rule_injective hrule
    exact operation hleft (ih rfl) hop hright
  | expression | value | assign | unary | primary | number | string | truth | falsity | nil | name
    | grouping => cases level <;> simp [Level.rule] at hrule

/-! ### Expressions -/

section Minus

variable {minus : Token} {ts us : List Token} {e : Expr}

theorem DerivesExpr.unary_behind_minus (hminus : minus.kind = .minus)
    (h : DerivesExpr .unary (minus :: us) e) : ∃ e', DerivesExpr .unary us e' := by
  generalize hrule : Rule.unary = rule at h
  generalize htokens : minus :: us = tokens at h
  cases h with
  | unary _ hright =>
    obtain ⟨-, rfl⟩ := List.cons.inj htokens
    exact ⟨_, hright⟩
  | primary hprimary =>
    have hnot := hprimary.not_prefixed []
    simp [← htokens, peek, hminus, unaryOperator?] at hnot
  | operand | operation => cases ‹Level› <;> simp [Level.rule] at hrule
  | expression | value | assign | number | string | truth | falsity | nil | name | grouping =>
    simp at hrule

/-- Before operands of the tightest level a `-` belongs to the first of them alone. -/
theorem DerivesExpr.factor_behind_minus (hminus : minus.kind = .minus)
    (h : DerivesExpr .factor (minus :: us) e) : ∃ e', DerivesExpr .factor us e' := by
  have hlevel : DerivesExpr Level.factor.rule (minus :: us) e := h
  refine hlevel.level_induct (P := fun tokens => ∀ us, tokens = minus :: us →
    ∃ e', DerivesExpr .factor us e') ?_ ?_ us rfl
  · rintro _ e hunary us rfl
    obtain ⟨e', he'⟩ := hunary.unary_behind_minus hminus
    exact ⟨e', @DerivesExpr.operand .factor us e' he'⟩
  · intro ts vs operator op left right hleft ih hop hright us hus
    obtain ⟨first, more, rfl, -⟩ := hleft.first
    obtain ⟨rfl, rfl⟩ := List.cons.inj hus
    obtain ⟨e', he'⟩ := ih more rfl
    exact ⟨_, @DerivesExpr.operation .factor more vs operator op e' right he' hop hright⟩

/-- What a rule derives goes on over a `-` to what it derives from there. -/
def Rule.Joins (rule : Rule) (minus : Token) : Prop :=
  ∀ (ts us : List Token) (left right : Expr), DerivesExpr rule ts left →
    DerivesExpr rule (minus :: us) right → ∃ e, DerivesExpr rule (ts ++ minus :: us) e

/-- If the first operand behind can be joined, so can all that is derived on the level. -/
theorem DerivesExpr.join_level {level : Level} (h : DerivesExpr level.rule (minus :: us) e)
    (hoperand : ∀ {us : List Token} {e : Expr}, DerivesExpr level.operandRule (minus :: us) e →
      ∃ e', DerivesExpr level.rule (ts ++ minus :: us) e') :
    ∃ e', DerivesExpr level.rule (ts ++ minus :: us) e' := by
  refine h.level_induct (P := fun tokens => ∀ us, tokens = minus :: us →
    ∃ e', DerivesExpr level.rule (ts ++ minus :: us) e') ?_ ?_ us rfl
  · rintro _ e hfirst us rfl
    exact hoperand hfirst
  · intro ts' vs operator op left right hleft ih hop hright us hus
    obtain ⟨first, more, rfl, -⟩ := hleft.first
    obtain ⟨rfl, rfl⟩ := List.cons.inj hus
    obtain ⟨e', he'⟩ := ih more rfl
    exact ⟨_, by simpa using he'.operation hop hright⟩

/-- On the level of `-` itself it is one more operator. -/
theorem joins_term (hminus : minus.kind = .minus) : Rule.term.Joins minus := by
  intro ts us left right hleft hright
  have hlevel : DerivesExpr Level.term.rule (minus :: us) right := hright
  refine hlevel.join_level fun {us e} hoperand => ?_
  obtain ⟨e', he'⟩ := hoperand.factor_behind_minus hminus
  have hop : Level.term.Infix minus.kind .minus := hminus ▸ .minus
  exact ⟨_, @DerivesExpr.operation .term ts us minus .minus left e' hleft hop he'⟩

/-- On a looser level the last operand before takes in the first one behind. -/
theorem joins_level {level : Level} (hjoins : level.operandRule.Joins minus) :
    level.rule.Joins minus := by
  intro ts us left right hleft hright
  refine hright.join_level fun {us e} hoperand => ?_
  refine hleft.level_induct (P := fun ts => ∃ e', DerivesExpr level.rule (ts ++ minus :: us) e') ?_ ?_
  · intro ts e hlast
    obtain ⟨e', he'⟩ := hjoins _ _ _ _ hlast hoperand
    exact ⟨e', .operand he'⟩
  · intro ts vs operator op left right hbefore _ hop hlast
    obtain ⟨e', he'⟩ := hjoins _ _ _ _ hlast hoperand
    exact ⟨_, by simpa using hbefore.operation hop he'⟩

theorem joins_equality (hminus : minus.kind = .minus) : Rule.equality.Joins minus := by
  have hcomparison : Level.comparison.rule.Joins minus := joins_level (joins_term hminus)
  have hequality : Level.equality.rule.Joins minus := joins_level hcomparison
  exact hequality

/-- A variable is derived from its name alone. -/
theorem DerivesExpr.of_variable {rule : Rule} {name : Token}
    (h : DerivesExpr rule ts (.variable name)) : ts = [name] ∧ name.kind = .identifier := by
  generalize he : Expr.variable name = e at h
  induction h with
  | expression _ ih | value _ ih | operand _ ih | primary _ ih => exact ih he
  | name hkind =>
    obtain rfl := Expr.variable.inj he
    exact ⟨rfl, hkind⟩
  | assign | operation | unary | number | string | truth | falsity | nil | grouping => simp at he

/-- What begins with `-` is no assignment. -/
theorem DerivesExpr.equality_of_minus (hminus : minus.kind = .minus)
    (h : DerivesExpr .expression (minus :: us) e) : DerivesExpr .equality (minus :: us) e := by
  generalize hrule : Rule.expression = rule at h
  generalize htokens : minus :: us = tokens at h ⊢
  cases h with
  | expression hassignment =>
    generalize hrule' : Rule.assignment = rule at hassignment
    cases hassignment with
    | value hequality => exact hequality
    | assign htarget =>
      obtain ⟨rfl, hname⟩ := htarget.of_variable
      obtain ⟨rfl, -⟩ := List.cons.inj htokens
      simp [hminus] at hname
    | operand | operation => cases ‹Level› <;> simp [Level.rule] at hrule'
    | expression | unary | primary | number | string | truth | falsity | nil | name | grouping =>
      simp at hrule'
  | operand | operation => cases ‹Level› <;> simp [Level.rule] at hrule
  | value | assign | unary | primary | number | string | truth | falsity | nil | name | grouping =>
    simp at hrule

/-- The last value assigned takes in what follows. -/
theorem DerivesExpr.join_assignment (hminus : minus.kind = .minus) {right : Expr}
    (h : DerivesExpr .assignment ts e) (hright : DerivesExpr .equality (minus :: us) right) :
    ∃ e', DerivesExpr .assignment (ts ++ minus :: us) e' := by
  generalize hrule : Rule.assignment = rule at h
  induction h with
  | value hvalue =>
    obtain ⟨e', he'⟩ := joins_equality hminus _ _ _ _ hvalue hright
    exact ⟨e', .value he'⟩
  | assign htarget hequals _ _ ih =>
    obtain ⟨e', he'⟩ := ih rfl
    exact ⟨_, by simpa using htarget.assign hequals he'⟩
  | operand | operation => cases ‹Level› <;> simp [Level.rule] at hrule
  | expression | unary | primary | number | string | truth | falsity | nil | name | grouping =>
    simp at hrule

/-- **Two expressions, the second beginning with `-`, are one.** -/
theorem DerivesExpr.join (hminus : minus.kind = .minus) {right : Expr}
    (h : DerivesExpr .expression ts e) (hright : DerivesExpr .expression (minus :: us) right) :
    ∃ e', DerivesExpr .expression (ts ++ minus :: us) e' := by
  generalize hrule : Rule.expression = rule at h
  cases h with
  | expression hassignment =>
    obtain ⟨e', he'⟩ := hassignment.join_assignment hminus (hright.equality_of_minus hminus)
    exact ⟨e', .expression he'⟩
  | operand | operation => cases ‹Level› <;> simp [Level.rule] at hrule
  | value | assign | unary | primary | number | string | truth | falsity | nil | name | grouping =>
    simp at hrule

end Minus

/-! ### Statements -/

/-- Of two lists one behind the other, the second holds the last element, if it holds any. -/
theorem exists_last_of_append {before behind ts : List Token} {last : Token}
    (h : before ++ behind = ts ++ [last]) (hne : behind ≠ []) :
    ∃ us, behind = us ++ [last] ∧ ts = before ++ us := by
  obtain ⟨us, last', rfl⟩ := (List.eq_nil_or_concat behind).resolve_left hne
  rw [List.concat_eq_append, ← List.append_assoc, List.append_singleton_inj] at h
  exact ⟨us, by rw [List.concat_eq_append, h.2], h.1.symm⟩

theorem DerivesStmt.ne_nil {rule : Rule} {ts : List Token} {s : Stmt} (h : DerivesStmt rule ts s) :
    ts ≠ [] := by
  obtain ⟨first, more, rfl, -⟩ := h.first
  exact List.cons_ne_nil _ _

/-- A branch is no declaration. -/
theorem DerivesStmt.ne_declare {ts : List Token} {s : Stmt} (h : DerivesStmt .statement ts s)
    (name : Token) (initial : Option Expr) : s ≠ .declare name initial := by
  rintro rfl
  cases h with
  | choice hchoice hchosen =>
    cases hchoice <;> cases hchosen with
    | choice hnone _ => cases hnone

/-- **A statement takes in an expression that begins with `-`** where its last semicolon stood, if
it ends in an expression. -/
theorem DerivesStmt.join {rule : Rule} {tokens us : List Token} {s : Stmt} {minus semicolon : Token}
    {right : Expr} (h : DerivesStmt rule tokens s) (hminus : minus.kind = .minus)
    (hright : DerivesExpr .expression (minus :: us) right) (hsemicolon : semicolon.kind = .semicolon) :
    ∀ ts last, tokens = ts ++ [last] → last.kind = .semicolon →
      (∃ name, s = .declare name none) ∨
        ∃ s', DerivesStmt rule (ts ++ (minus :: us ++ [semicolon])) s' := by
  induction h with
  | choice hchoice _ ih =>
    intro ts last htokens hlast
    refine (ih ts last htokens hlast).imp_right ?_
    exact fun ⟨s', hs'⟩ => ⟨s', .choice hchoice hs'⟩
  | declare => exact fun _ _ _ _ => .inl ⟨_, rfl⟩
  | @define keyword name equals _ es initial hkeyword hname hequals hinitial _ =>
    intro ts last htokens _
    obtain ⟨rfl, -⟩ := List.append_singleton_inj.mp
      (show (keyword :: name :: equals :: es) ++ [_] = ts ++ [last] from htokens)
    obtain ⟨e', he'⟩ := hinitial.join hminus hright
    exact .inr ⟨_, by simpa using DerivesStmt.define hkeyword hname hequals he' hsemicolon⟩
  | @conditional keyword opening closing cs yes condition _ hkeyword hopening hcondition hclosing
      hyes ih =>
    intro ts last htokens hlast
    obtain ⟨us', rfl, rfl⟩ := exists_last_of_append
      (show (keyword :: opening :: (cs ++ [closing])) ++ yes = ts ++ [last] by simpa using htokens)
      hyes.ne_nil
    rcases ih us' last rfl hlast with ⟨name, rfl⟩ | ⟨s', hs'⟩
    · exact absurd rfl (hyes.ne_declare name none)
    · exact .inr ⟨_, by
        simpa using DerivesStmt.conditional hkeyword hopening hcondition hclosing hs'⟩
  | @alternative keyword opening closing other cs yes no condition _ _ hkeyword hopening hcondition
      hclosing hyes hother hno _ ih =>
    intro ts last htokens hlast
    obtain ⟨us', rfl, rfl⟩ := exists_last_of_append
      (show (keyword :: opening :: (cs ++ closing :: (yes ++ [other]))) ++ no = ts ++ [last] by
        simpa using htokens) hno.ne_nil
    rcases ih us' last rfl hlast with ⟨name, rfl⟩ | ⟨s', hs'⟩
    · exact absurd rfl (hno.ne_declare name none)
    · exact .inr ⟨_, by
        simpa using DerivesStmt.alternative hkeyword hopening hcondition hclosing hyes hother hs'⟩
  | @print keyword _ es value hkeyword hvalue _ =>
    intro ts last htokens _
    obtain ⟨rfl, -⟩ := List.append_singleton_inj.mp
      (show (keyword :: es) ++ [_] = ts ++ [last] from htokens)
    obtain ⟨e', he'⟩ := hvalue.join hminus hright
    exact .inr ⟨_, by simpa using DerivesStmt.print hkeyword he' hsemicolon⟩
  | @body opening closing parts _ _ hclosing _ =>
    intro ts last htokens hlast
    obtain ⟨-, rfl⟩ := List.append_singleton_inj.mp
      (show (opening :: parts.flatMap Prod.fst) ++ [closing] = ts ++ [last] from htokens)
    simp [hclosing] at hlast
  | expression hvalue _ =>
    intro ts last htokens _
    obtain ⟨rfl, -⟩ := List.append_singleton_inj.mp htokens
    obtain ⟨e', he'⟩ := hvalue.join hminus hright
    exact .inr ⟨_, by simpa using DerivesStmt.expression he' hsemicolon⟩

end LoxLang.Grammar
