import LoxLang.Proofs.Grammar.Derivation
import LoxLang.Proofs.Token.Lines
import LoxLang.Proofs.Tree.Changes

/-!
# Trees on other lines

The grammar does not look at the lines of tokens: from tokens on other lines it derives the tree
with its tokens on those lines (`DerivesProgram.mapLine`). And it does not look back: the tokens
of one program and then of another are derived to both, one after the other
(`DerivesProgram.append`).
-/

namespace LoxLang

/-- The expression with its tokens on the lines that are given for theirs. -/
def Expr.mapLine (g : Nat → Nat) : Expr → Expr
  | .literal value => .literal value
  | .grouping inner => .grouping (inner.mapLine g)
  | .unary op token right => .unary op (token.mapLine g) (right.mapLine g)
  | .binary left op token right => .binary (left.mapLine g) op (token.mapLine g) (right.mapLine g)
  | .variable name => .variable (name.mapLine g)
  | .assign name value => .assign (name.mapLine g) (value.mapLine g)

mutual

/-- The statement with its tokens on the lines that are given for theirs. -/
def Stmt.mapLine (g : Nat → Nat) : Stmt → Stmt
  | .expression e => .expression (e.mapLine g)
  | .print e => .print (e.mapLine g)
  | .declare name none => .declare (name.mapLine g) none
  | .declare name (some initial) => .declare (name.mapLine g) (some (initial.mapLine g))
  | .block body => .block (Stmt.mapLineAll g body)
  | .conditional condition yes none => .conditional (condition.mapLine g) (yes.mapLine g) none
  | .conditional condition yes (some no) =>
    .conditional (condition.mapLine g) (yes.mapLine g) (some (no.mapLine g))

/-- The statements with their tokens on the lines that are given for theirs. -/
def Stmt.mapLineAll (g : Nat → Nat) : List Stmt → List Stmt
  | [] => []
  | s :: rest => s.mapLine g :: Stmt.mapLineAll g rest

end

theorem Stmt.mapLineAll_eq_map (g : Nat → Nat) (body : List Stmt) :
    Stmt.mapLineAll g body = body.map (Stmt.mapLine g) := by
  induction body with
  | nil => rfl
  | cons s rest ih => rw [Stmt.mapLineAll, ih, List.map_cons]

theorem Stmt.mapLine_block (g : Nat → Nat) (body : List Stmt) :
    (Stmt.block body).mapLine g = .block (body.map (Stmt.mapLine g)) := by
  rw [Stmt.mapLine, Stmt.mapLineAll_eq_map]

theorem Stmt.mapLine_eq_mapParts (g : Nat → Nat) (s : Stmt) :
    s.mapLine g = s.mapParts (Expr.mapLine g) (Token.mapLine g) := by
  induction s using Stmt.induct with
  | expression e => rfl
  | print e => rfl
  | declare name initial => cases initial <;> rfl
  | block body ih => rw [Stmt.mapLine_block, Stmt.mapParts_block, List.map_congr_left ih]
  | conditional condition yes no ihyes ihno =>
    cases no with
    | none => rw [Stmt.mapLine, Stmt.mapParts, ihyes]
    | some no => rw [Stmt.mapLine, Stmt.mapParts, ihyes, ihno no rfl]

/-! ### The nearest `if` -/

theorem Stmt.endsOpen_mapLine (g : Nat → Nat) (s : Stmt) : (s.mapLine g).endsOpen = s.endsOpen := by
  induction s using Stmt.induct with
  | expression e => rfl
  | print e => rfl
  | declare name initial => cases initial <;> rfl
  | block body _ => rfl
  | conditional condition yes no _ ihno =>
    cases no with
    | none => rfl
    | some no => exact ihno no rfl

theorem Stmt.ElseNearest.mapLine {s : Stmt} (h : s.ElseNearest) (g : Nat → Nat) :
    (s.mapLine g).ElseNearest := by
  induction h with
  | expression => exact .expression
  | print => exact .print
  | @declare name initial => cases initial <;> exact .declare
  | block _ ih =>
    rw [Stmt.mapLine_block]
    refine .block fun s hs => ?_
    obtain ⟨s', hs', rfl⟩ := List.mem_map.mp hs
    exact ih s' hs'
  | conditional _ ih => exact .conditional ih
  | alternative hopen _ _ ihyes ihno =>
    exact .alternative (by rw [Stmt.endsOpen_mapLine, hopen]) ihyes ihno

theorem Program.ElseNearest.append {first second : Program} (h : first.ElseNearest)
    (h' : second.ElseNearest) :
    Program.ElseNearest (first ++ second) := List.forall_mem_append.mpr ⟨h, h'⟩

theorem Program.ElseNearest.mapLine {program : Program} (h : program.ElseNearest) (g : Nat → Nat) :
    Program.ElseNearest (program.map (Stmt.mapLine g)) := by
  intro s hs
  obtain ⟨s', hs', rfl⟩ := List.mem_map.mp hs
  exact (h s' hs').mapLine g

namespace Grammar

/-! ### The grammar -/

theorem DerivesExpr.mapLine {rule : Rule} {ts : List Token} {e : Expr} (h : DerivesExpr rule ts e)
    (g : Nat → Nat) : DerivesExpr rule (ts.map (Token.mapLine g)) (e.mapLine g) := by
  induction h with
  | expression _ ih => exact .expression ih
  | value _ ih => exact .value ih
  | operand _ ih => exact .operand ih
  | primary _ ih => exact .primary ih
  | assign _ hequals _ ihtarget ihvalue =>
    rw [List.map_append, List.map_cons]
    exact .assign ihtarget hequals ihvalue
  | operation _ hop _ ihleft ihright =>
    rw [List.map_append, List.map_cons]
    exact .operation ihleft hop ihright
  | unary hprefixed _ ih => exact .unary hprefixed ih
  | number hkind hliteral => exact .number hkind hliteral
  | string hkind hliteral => exact .string hkind hliteral
  | truth hkind => exact .truth hkind
  | falsity hkind => exact .falsity hkind
  | nil hkind => exact .nil hkind
  | name hkind => exact .name hkind
  | grouping hopening _ hclosing ih =>
    rw [List.map_cons, List.map_append]
    exact .grouping hopening ih hclosing

/-- Parts on other lines are derived together if each is. -/
theorem derivesProgram_mapLine_parts (g : Nat → Nat) {parts : List (List Token × Stmt)}
    (h : ∀ part ∈ parts,
      DerivesStmt .declaration (part.1.map (Token.mapLine g)) (part.2.mapLine g)) :
    DerivesProgram ((parts.flatMap Prod.fst).map (Token.mapLine g))
      ((parts.map Prod.snd).map (Stmt.mapLine g)) := by
  refine ⟨parts.map (Prod.map (List.map (Token.mapLine g)) (Stmt.mapLine g)), ?_, ?_, ?_⟩
  · intro part hpart
    obtain ⟨part', hpart', rfl⟩ := List.mem_map.mp hpart
    exact h part' hpart'
  · rw [List.map_flatMap, List.flatMap_map]
    rfl
  · rw [List.map_map, List.map_map]
    rfl

theorem DerivesStmt.mapLine {rule : Rule} {ts : List Token} {s : Stmt} (h : DerivesStmt rule ts s)
    (g : Nat → Nat) : DerivesStmt rule (ts.map (Token.mapLine g)) (s.mapLine g) := by
  induction h with
  | choice hchoice _ ih => exact .choice hchoice ih
  | declare hkeyword hname hsemicolon => exact .declare hkeyword hname hsemicolon
  | define hkeyword hname hequals hinitial hsemicolon =>
    simp only [List.map_cons, List.map_append]
    exact .define hkeyword hname hequals (hinitial.mapLine g) hsemicolon
  | conditional hkeyword hopening hcondition hclosing _ ih =>
    simp only [List.map_cons, List.map_append]
    exact .conditional hkeyword hopening (hcondition.mapLine g) hclosing ih
  | alternative hkeyword hopening hcondition hclosing _ hother _ ihyes ihno =>
    simp only [List.map_cons, List.map_append]
    exact .alternative hkeyword hopening (hcondition.mapLine g) hclosing ihyes hother ihno
  | print hkeyword hvalue hsemicolon =>
    simp only [List.map_cons, List.map_append]
    exact .print hkeyword (hvalue.mapLine g) hsemicolon
  | @body opening closing parts hopening _ hclosing ih =>
    obtain ⟨parts', hparts', hts, hbody⟩ := derivesProgram_mapLine_parts g ih
    simp only [List.map_cons, List.map_append, Stmt.mapLine_block]
    rw [hts, hbody]
    exact .body hopening hparts' hclosing
  | expression hvalue hsemicolon =>
    simp only [List.map_append]
    exact .expression (hvalue.mapLine g) hsemicolon

/-- **The grammar does not look at lines.** -/
theorem DerivesProgram.mapLine {ts : List Token} {body : Program} (h : DerivesProgram ts body)
    (g : Nat → Nat) : DerivesProgram (ts.map (Token.mapLine g)) (body.map (Stmt.mapLine g)) := by
  obtain ⟨parts, hparts, rfl, rfl⟩ := h
  exact derivesProgram_mapLine_parts g fun part hpart => (hparts part hpart).mapLine g

/-- **Programs can be put one after the other**, tokens with tokens and statements with
statements. -/
theorem DerivesProgram.append {ts us : List Token} {first second : Program}
    (h : DerivesProgram ts first) (h' : DerivesProgram us second) :
    DerivesProgram (ts ++ us) (first ++ second) := by
  obtain ⟨parts, hparts, rfl, rfl⟩ := h
  obtain ⟨parts', hparts', rfl, rfl⟩ := h'
  exact ⟨parts ++ parts', List.forall_mem_append.mpr ⟨hparts, hparts'⟩, List.flatMap_append.symm,
    List.map_append.symm⟩

end Grammar

end LoxLang
