import LoxLang.Proofs.Grammar.Derivation
import LoxLang.Proofs.Token.Scanning

/-!
# How a tree is spelled

A tree fixes the kinds of the tokens that it is derived from, if literals are such as are found
in source texts: number tokens denote numbers and string tokens denote strings. So two lists of
tokens with the same tree differ at most in lexemes and lines (`DerivesProgram.map_kind`).
-/

namespace LoxLang

/-- The literal of a number token is a number, that of a string token is a string. -/
def Token.LiteralFits (token : Token) : Prop :=
  (token.kind = .number → ∃ x, token.literal = some (.number x)) ∧
    (token.kind = .string → ∃ s, token.literal = some (.string s))

theorem Lexical.Pattern.literalFits {text : List Char} (h : Lexical.Pattern text) (line : Nat) :
    (Lexical.tokenOf text line).LiteralFits := by
  constructor
  · intro hnumber
    have hnumber : Lexical.kindOf text = .number := hnumber
    rcases h.kindOf_cases with ⟨x, -, hliteral⟩ | ⟨_, hkind, -⟩ | ⟨hkind, -⟩
    · exact ⟨x, hliteral⟩
    · exact absurd (hkind.symm.trans hnumber) (by decide)
    · exact absurd (by simp [hnumber]) hkind
  · intro hstring
    have hstring : Lexical.kindOf text = .string := hstring
    rcases h.kindOf_cases with ⟨_, hkind, -⟩ | ⟨s, -, hliteral⟩ | ⟨hkind, -⟩
    · exact absurd (hkind.symm.trans hstring) (by decide)
    · exact ⟨s, hliteral⟩
    · exact absurd (by simp [hstring]) hkind

/-- The tokens of a source text have fitting literals. -/
theorem literalFits_of_tokenize {source : String} {tokens : List Token}
    (h : tokenize source = .ok tokens) : ∀ token ∈ tokens, token.LiteralFits := by
  obtain ⟨lexemes, last, rfl, hlexemes⟩ :=
    (Lexical.tokenize_eq_ok_iff_tokenizes.mp h).exists_lexemes
  intro token htoken
  rcases List.mem_append.mp htoken with htoken | htoken
  · obtain ⟨hpattern, heq⟩ := hlexemes token htoken
    rw [heq]
    exact hpattern.literalFits token.line
  · rw [List.mem_singleton.mp htoken]
    simp [Token.LiteralFits, Token.endAt]

/-! ### The kinds of the tokens of a tree -/

/-- The kind of the token that denotes a value. -/
def Value.tokenKind : Value → TokenKind
  | .number _ => .number
  | .string _ => .string
  | .boolean true => .kwTrue
  | .boolean false => .kwFalse
  | .nil => .kwNil

/-- The kind of the token of an operator before its operand. -/
def UnaryOp.tokenKind : UnaryOp → TokenKind
  | .negate => .minus
  | .not => .bang

/-- The kind of the token of an operator between its operands. -/
def BinaryOp.tokenKind : BinaryOp → TokenKind
  | .equal => .equalEqual
  | .notEqual => .bangEqual
  | .lessThan => .less
  | .lessThanOrEqual => .lessEqual
  | .greaterThan => .greater
  | .greaterThanOrEqual => .greaterEqual
  | .plus => .plus
  | .minus => .minus
  | .multiply => .star
  | .divide => .slash

/-- The kinds of the tokens of an expression, in order. -/
def Expr.tokenKinds : Expr → List TokenKind
  | .literal value => [value.tokenKind]
  | .grouping inner => .leftParen :: (inner.tokenKinds ++ [.rightParen])
  | .unary op _ right => op.tokenKind :: right.tokenKinds
  | .binary left op _ right => left.tokenKinds ++ op.tokenKind :: right.tokenKinds
  | .variable _ => [.identifier]
  | .assign _ value => .identifier :: .equal :: value.tokenKinds

mutual

/-- The kinds of the tokens of a statement, in order. -/
def Stmt.tokenKinds : Stmt → List TokenKind
  | .expression e => e.tokenKinds ++ [.semicolon]
  | .print e => .kwPrint :: (e.tokenKinds ++ [.semicolon])
  | .declare _ none => [.kwVar, .identifier, .semicolon]
  | .declare _ (some initial) =>
    .kwVar :: .identifier :: .equal :: (initial.tokenKinds ++ [.semicolon])
  | .block body => .leftBrace :: (Stmt.tokenKindsAll body ++ [.rightBrace])
  | .conditional condition yes none =>
    .kwIf :: .leftParen :: (condition.tokenKinds ++ .rightParen :: yes.tokenKinds)
  | .conditional condition yes (some no) =>
    .kwIf :: .leftParen :: (condition.tokenKinds ++
      .rightParen :: (yes.tokenKinds ++ .kwElse :: no.tokenKinds))

/-- The kinds of the tokens of statements one after the other. -/
def Stmt.tokenKindsAll : List Stmt → List TokenKind
  | [] => []
  | s :: rest => s.tokenKinds ++ Stmt.tokenKindsAll rest

end

namespace Grammar

theorem Prefixed.tokenKind {kind : TokenKind} {op : UnaryOp} (h : Prefixed kind op) :
    op.tokenKind = kind := by
  cases h <;> rfl

theorem Level.Infix.tokenKind {level : Level} {kind : TokenKind} {op : BinaryOp}
    (h : level.Infix kind op) : op.tokenKind = kind := by
  cases h <;> rfl

theorem DerivesExpr.map_kind {rule : Rule} {ts : List Token} {e : Expr} (h : DerivesExpr rule ts e)
    (hfits : ∀ token ∈ ts, token.LiteralFits) : ts.map Token.kind = e.tokenKinds := by
  induction h with
  | expression _ ih => exact ih hfits
  | value _ ih => exact ih hfits
  | operand _ ih => exact ih hfits
  | primary _ ih => exact ih hfits
  | assign _ hequals _ ihtarget ihvalue =>
    obtain ⟨hts, -, hus⟩ :=
      List.forall_mem_append.mp hfits |>.imp_right List.forall_mem_cons.mp
    simp only [List.map_append, List.map_cons, ihtarget hts, ihvalue hus, hequals, Expr.tokenKinds,
      List.cons_append, List.nil_append]
  | operation _ hop _ ihleft ihright =>
    obtain ⟨hts, -, hus⟩ := List.forall_mem_append.mp hfits |>.imp_right List.forall_mem_cons.mp
    simp only [List.map_append, List.map_cons, ihleft hts, ihright hus, hop.tokenKind,
      Expr.tokenKinds]
  | unary hprefixed _ ih =>
    obtain ⟨-, hts⟩ := List.forall_mem_cons.mp hfits
    simp only [List.map_cons, ih hts, hprefixed.tokenKind, Expr.tokenKinds]
  | @number token value hkind hliteral =>
    obtain ⟨x, hx⟩ := (hfits token (List.mem_singleton_self token)).1 hkind
    rw [hliteral, Option.some.injEq] at hx
    subst hx
    simp only [List.map_cons, List.map_nil, hkind, Expr.tokenKinds, Value.tokenKind]
  | @string token value hkind hliteral =>
    obtain ⟨s, hs⟩ := (hfits token (List.mem_singleton_self token)).2 hkind
    rw [hliteral, Option.some.injEq] at hs
    subst hs
    simp only [List.map_cons, List.map_nil, hkind, Expr.tokenKinds, Value.tokenKind]
  | truth hkind | falsity hkind | nil hkind | name hkind =>
    simp only [List.map_cons, List.map_nil, hkind, Expr.tokenKinds, Value.tokenKind]
  | grouping hopening _ hclosing ih =>
    have hts := fun token htoken => hfits token
      (List.mem_cons_of_mem _ (List.mem_append_left _ htoken))
    simp only [List.map_cons, List.map_append, List.map_nil, ih hts, hopening, hclosing,
      Expr.tokenKinds]

/-- Parts that spell their statements, each on its own, spell them together. -/
theorem map_kind_parts (parts : List (List Token × Stmt))
    (h : ∀ part ∈ parts, part.1.map Token.kind = part.2.tokenKinds) :
    (parts.flatMap Prod.fst).map Token.kind = Stmt.tokenKindsAll (parts.map Prod.snd) := by
  induction parts with
  | nil => simp [Stmt.tokenKindsAll]
  | cons part parts ih =>
    obtain ⟨hpart, hparts⟩ := List.forall_mem_cons.mp h
    simp only [List.flatMap_cons, List.map_append, List.map_cons, Stmt.tokenKindsAll, hpart,
      ih hparts]

theorem DerivesStmt.map_kind {rule : Rule} {ts : List Token} {s : Stmt} (h : DerivesStmt rule ts s)
    (hfits : ∀ token ∈ ts, token.LiteralFits) : ts.map Token.kind = s.tokenKinds := by
  induction h with
  | choice _ _ ih => exact ih hfits
  | declare hkeyword hname hsemicolon =>
    simp only [List.map_cons, List.map_nil, hkeyword, hname, hsemicolon, Stmt.tokenKinds]
  | define hkeyword hname hequals hinitial hsemicolon =>
    simp only [List.forall_mem_cons, List.forall_mem_append] at hfits
    simp only [List.map_cons, List.map_append, List.map_nil, hkeyword, hname, hequals, hsemicolon,
      hinitial.map_kind hfits.2.2.2.1, Stmt.tokenKinds]
  | conditional hkeyword hopening hcondition hclosing _ ih =>
    simp only [List.forall_mem_cons, List.forall_mem_append] at hfits
    simp only [List.map_cons, List.map_append, hkeyword, hopening, hclosing,
      hcondition.map_kind hfits.2.2.1, ih hfits.2.2.2.2, Stmt.tokenKinds]
  | alternative hkeyword hopening hcondition hclosing _ hother _ ihyes ihno =>
    simp only [List.forall_mem_cons, List.forall_mem_append] at hfits
    simp only [List.map_cons, List.map_append, hkeyword, hopening, hclosing, hother,
      hcondition.map_kind hfits.2.2.1, ihyes hfits.2.2.2.2.1, ihno hfits.2.2.2.2.2.2,
      Stmt.tokenKinds]
  | print hkeyword hvalue hsemicolon =>
    simp only [List.forall_mem_cons, List.forall_mem_append] at hfits
    simp only [List.map_cons, List.map_append, List.map_nil, hkeyword, hsemicolon,
      hvalue.map_kind hfits.2.1, Stmt.tokenKinds]
  | @body opening closing parts hopening _ hclosing ih =>
    simp only [List.forall_mem_cons, List.forall_mem_append] at hfits
    have hparts := map_kind_parts parts fun part hpart =>
      ih part hpart fun token htoken => hfits.2.1 token (List.mem_flatMap.mpr ⟨part, hpart, htoken⟩)
    simp only [List.map_cons, List.map_append, List.map_nil, hopening, hclosing, hparts,
      Stmt.tokenKinds]
  | expression hvalue hsemicolon =>
    simp only [List.forall_mem_cons, List.forall_mem_append] at hfits
    simp only [List.map_append, List.map_cons, List.map_nil, hsemicolon, hvalue.map_kind hfits.1,
      Stmt.tokenKinds]

/-- **Spelling**: the kinds of a program's tokens are those of its tree. -/
theorem DerivesProgram.map_kind {ts : List Token} {body : Program} (h : DerivesProgram ts body)
    (hfits : ∀ token ∈ ts, token.LiteralFits) : ts.map Token.kind = Stmt.tokenKindsAll body := by
  obtain ⟨parts, hparts, rfl, rfl⟩ := h
  refine map_kind_parts parts fun part hpart => (hparts part hpart).map_kind fun token htoken => ?_
  exact hfits token (List.mem_flatMap.mpr ⟨part, hpart, htoken⟩)

end Grammar

end LoxLang
