import LoxLang.Proofs.Grammar.Derivation

/-!
# The nearest `if`

The grammar leaves open which `if` an `else` belongs to, but never whether there is one: every
derivation can be rearranged, on the same tokens, so that every `else` belongs to the nearest
`if` (`DerivesProgram.exists_elseNearest`). An `else` that belongs too far out is handed inwards,
past the conditionals that lack one, to the innermost of them (`DerivesStmt.handInwards`).
-/

namespace LoxLang.Grammar

/-- A statement that ends in an open conditional takes an `else` and its branch, on the same
tokens and by the same rule, into its last open conditional. -/
theorem DerivesStmt.handInwards {rule : Rule} {ts vs : List Token} {s no : Stmt} {other : Token}
    (h : DerivesStmt rule ts s) (hopen : s.endsOpen = true) (hnearest : s.ElseNearest)
    (hother : other.kind = .kwElse) (hno : DerivesStmt .statement vs no) (hno' : no.ElseNearest) :
    ∃ s', DerivesStmt rule (ts ++ other :: vs) s' ∧ s'.ElseNearest := by
  induction h with
  | choice hchoice _ ih =>
    obtain ⟨s', hs, hs'⟩ := ih hopen hnearest
    exact ⟨s', .choice hchoice hs, hs'⟩
  | @conditional keyword opening closing ts us condition yes hkeyword hopening hcondition
      hclosing hyes ih =>
    cases hnearest with
    | conditional hnearest =>
      by_cases hyesOpen : yes.endsOpen = true
      · obtain ⟨yes', hs, hs'⟩ := ih hyesOpen hnearest
        exact ⟨.conditional condition yes' none,
          by simpa using DerivesStmt.conditional hkeyword hopening hcondition hclosing hs,
            .conditional hs'⟩
      · have hyesClosed : yes.endsOpen = false := eq_false_of_ne_true hyesOpen
        exact ⟨.conditional condition yes (some no),
          by simpa using
            DerivesStmt.alternative hkeyword hopening hcondition hclosing hyes hother hno,
          .alternative hyesClosed hnearest hno'⟩
  | @alternative keyword opening closing first ts us ws condition yes last hkeyword hopening
      hcondition hclosing
      hyes hfirst _ _ ih =>
    cases hnearest with
    | alternative hclosed hyesNearest hlastNearest =>
      obtain ⟨last', hs, hs'⟩ := ih hopen hlastNearest
      exact ⟨.conditional condition yes (some last'),
        by simpa using DerivesStmt.alternative hkeyword hopening hcondition hclosing hyes hfirst hs,
        .alternative hclosed hyesNearest hs'⟩
  | declare | define | print | body | expression => simp [Stmt.endsOpen] at hopen

/-- Parts whose tokens are derived in the way wanted, each on its own, are so together. -/
theorem exists_parts_elseNearest (parts : List (List Token × Stmt))
    (h : ∀ part ∈ parts, ∃ s', DerivesStmt .declaration part.1 s' ∧ s'.ElseNearest) :
    ∃ parts' : List (List Token × Stmt), parts'.flatMap Prod.fst = parts.flatMap Prod.fst ∧
      (∀ part ∈ parts', DerivesStmt .declaration part.1 part.2) ∧
      ∀ s ∈ parts'.map Prod.snd, s.ElseNearest := by
  induction parts with
  | nil => exact ⟨[], rfl, by simp, by simp⟩
  | cons part parts ih =>
    obtain ⟨⟨s', hs, hs'⟩, hparts⟩ := List.forall_mem_cons.mp h
    obtain ⟨parts', hts, hparts', hnearest⟩ := ih hparts
    refine ⟨(part.1, s') :: parts', by simp [hts], ?_, ?_⟩
    · exact List.forall_mem_cons.mpr ⟨hs, hparts'⟩
    · exact List.forall_mem_cons.mpr ⟨hs', hnearest⟩

/-- Every derivation of a statement has a twin on the same tokens in which every `else` belongs to
the nearest `if`. -/
theorem DerivesStmt.exists_elseNearest {rule : Rule} {ts : List Token} {s : Stmt}
    (h : DerivesStmt rule ts s) : ∃ s', DerivesStmt rule ts s' ∧ s'.ElseNearest := by
  induction h with
  | choice hchoice _ ih =>
    obtain ⟨s', hs, hs'⟩ := ih
    exact ⟨s', .choice hchoice hs, hs'⟩
  | declare hkeyword hname hsemicolon => exact ⟨_, .declare hkeyword hname hsemicolon, .declare⟩
  | define hkeyword hname hequals hinitial hsemicolon =>
    exact ⟨_, .define hkeyword hname hequals hinitial hsemicolon, .declare⟩
  | conditional hkeyword hopening hcondition hclosing _ ih =>
    obtain ⟨yes', hs, hs'⟩ := ih
    exact ⟨_, .conditional hkeyword hopening hcondition hclosing hs, .conditional hs'⟩
  | alternative hkeyword hopening hcondition hclosing _ hother _ ihyes ihno =>
    obtain ⟨yes', hyes, hyes'⟩ := ihyes
    obtain ⟨no', hno, hno'⟩ := ihno
    by_cases hopen : yes'.endsOpen = true
    · -- The first branch lacks an `else`, and this one is the nearest it can get.
      obtain ⟨s', hs, hs'⟩ := hyes.handInwards hopen hyes' hother hno hno'
      exact ⟨_, .conditional hkeyword hopening hcondition hclosing hs, .conditional hs'⟩
    · exact ⟨_, .alternative hkeyword hopening hcondition hclosing hyes hother hno,
        .alternative (eq_false_of_ne_true hopen) hyes' hno'⟩
  | print hkeyword hvalue hsemicolon => exact ⟨_, .print hkeyword hvalue hsemicolon, .print⟩
  | body hopening _ hclosing ih =>
    obtain ⟨parts', hts, hparts', hnearest⟩ := exists_parts_elseNearest _ ih
    exact ⟨_, hts ▸ .body hopening hparts' hclosing, .block hnearest⟩
  | expression hvalue hsemicolon => exact ⟨_, .expression hvalue hsemicolon, .expression⟩

/-- Every derivation of a program has a twin on the same tokens in which every `else` belongs to
the nearest `if`. -/
theorem DerivesProgram.exists_elseNearest {ts : List Token} {body : Program}
    (h : DerivesProgram ts body) :
    ∃ body', DerivesProgram ts body' ∧ Program.ElseNearest body' := by
  obtain ⟨parts, hparts, rfl, rfl⟩ := h
  obtain ⟨parts', hts, hparts', hnearest⟩ :=
    exists_parts_elseNearest parts fun part hpart => (hparts part hpart).exists_elseNearest
  exact ⟨parts'.map Prod.snd, ⟨parts', hparts', hts.symm, rfl⟩, hnearest⟩

end LoxLang.Grammar
