import LoxLang.Proofs.Grammar.Origin
import LoxLang.Proofs.Session.Lines

/-!
# The expressions in a tree, and legible trees

Which expressions stand in a tree (`Expr.parts`, `Stmt.expressions`), and what can be said of the
trees that come from source texts: a token in such a tree is fixed, but for its line, by the
operator or by the name of its node. The tree is *legible* if besides no literal in it is a string,
which is written without quotes, or an infinite number (`Program.FromSource.legible`,
`Expr.FromSource.legible`).
-/

namespace LoxLang

/-! ### Expressions in trees -/

/-- The expressions in an expression, the whole one among them. -/
def Expr.parts : Expr → List Expr
  | .literal value => [.literal value]
  | .grouping inner => .grouping inner :: inner.parts
  | .unary op token right => .unary op token right :: right.parts
  | .binary left op token right => .binary left op token right :: (left.parts ++ right.parts)
  | .variable name => [.variable name]
  | .assign name value => .assign name value :: value.parts

mutual

/-- The expressions in a statement, at any depth. -/
def Stmt.expressions : Stmt → List Expr
  | .expression e => e.parts
  | .print e => e.parts
  | .declare _ none => []
  | .declare _ (some initial) => initial.parts
  | .block body => Stmt.expressionsAll body
  | .conditional condition yes none => condition.parts ++ yes.expressions
  | .conditional condition yes (some no) => condition.parts ++ (yes.expressions ++ no.expressions)

/-- The expressions in statements. -/
def Stmt.expressionsAll : List Stmt → List Expr
  | [] => []
  | s :: rest => s.expressions ++ Stmt.expressionsAll rest

end

theorem Stmt.expressionsAll_eq_flatMap (body : List Stmt) :
    Stmt.expressionsAll body = body.flatMap Stmt.expressions := by
  induction body with
  | nil => rfl
  | cons s rest ih => rw [Stmt.expressionsAll, ih, List.flatMap_cons]

theorem Stmt.mem_expressions_declare {name : Token} {initial : Option Expr} {part : Expr} :
    part ∈ (Stmt.declare name initial).expressions ↔ ∃ e ∈ initial, part ∈ e.parts := by
  cases initial <;> simp [Stmt.expressions]

theorem Stmt.mem_expressions_block {body : List Stmt} {part : Expr} :
    part ∈ (Stmt.block body).expressions ↔ ∃ s ∈ body, part ∈ s.expressions := by
  rw [Stmt.expressions, Stmt.expressionsAll_eq_flatMap, List.mem_flatMap]

theorem Stmt.mem_expressions_conditional {condition part : Expr} {yes : Stmt} {no : Option Stmt} :
    part ∈ (Stmt.conditional condition yes no).expressions ↔
      part ∈ condition.parts ∨ part ∈ yes.expressions ∨ ∃ s ∈ no, part ∈ s.expressions := by
  cases no <;> simp [Stmt.expressions]

/-- The tree is read from a source text, in one of the two modes. -/
def Program.FromSource (program : Program) : Prop :=
  ∃ lenient source, Program.ofSource lenient source = .ok program

/-- The expression stands in a tree that is read from a source text. -/
def Expr.FromSource (e : Expr) : Prop :=
  ∃ program : Program, program.FromSource ∧ e ∈ Stmt.expressionsAll program

theorem Expr.mem_parts (e : Expr) : e ∈ e.parts := by
  cases e <;> simp [Expr.parts]

theorem Expr.fromSource_of_expression {lenient : Bool} {source : String} {e : Expr}
    (h : Program.ofSource lenient source = .ok [.expression e]) : e.FromSource :=
  ⟨_, ⟨lenient, source, h⟩, List.mem_append_left _ e.mem_parts⟩

/-! ### Legible trees -/

/-- The value is written like no name and no other value: it is no string, and finite if it is a
number. -/
def Value.IsPlain : Value → Prop
  | .number x => x.isFinite = true
  | .string _ => False
  | .boolean _ => True
  | .nil => True

/-- All literals in the expression are plain. -/
def Expr.IsPlain (e : Expr) : Prop := ∀ value, .literal value ∈ e.parts → value.IsPlain

/-- All literals in the program are plain. -/
def Program.IsPlain (program : Program) : Prop :=
  ∀ value, .literal value ∈ Stmt.expressionsAll program → value.IsPlain

/-- The text is a name, and not reserved. -/
structure IsName (text : String) : Prop where
  spelled : ∃ c cs, text.toList = c :: cs ∧ Piece.isNameStart c = true ∧
    ∀ d ∈ cs, Piece.isNamePart d = true
  free : TokenKind.ofName text = .identifier

/-- The token is that of a lexeme which denotes no value, on some line. -/
def Token.Spells (token : Token) (kind : TokenKind) (lexeme : String) : Prop :=
  token = ⟨kind, lexeme, none, token.line⟩

theorem Token.Spells.mapLine_zero {token : Token} {kind : TokenKind} {lexeme : String}
    (h : token.Spells kind lexeme) : token.mapLine (fun _ => 0) = ⟨kind, lexeme, none, 0⟩ := by
  rw [h]
  rfl

/-- The token is that of a name. -/
def Token.SpellsName (token : Token) : Prop :=
  token.Spells .identifier token.lexeme ∧ IsName token.lexeme

/-- The tokens of operators and names are theirs, and the literals are plain. -/
def Expr.Legible : Expr → Prop
  | .literal value => value.IsPlain
  | .grouping inner => inner.Legible
  | .unary op token right => token.Spells op.tokenKind op.symbol ∧ right.Legible
  | .binary left op token right =>
    left.Legible ∧ token.Spells op.tokenKind op.symbol ∧ right.Legible
  | .variable name => name.SpellsName
  | .assign name value => name.SpellsName ∧ value.Legible

/-- The same for all expressions of a statement, and for the names that it declares. -/
inductive Stmt.Legible : Stmt → Prop where
  | expression {e : Expr} : e.Legible → Legible (.expression e)
  | print {e : Expr} : e.Legible → Legible (.print e)
  | declare {name : Token} {initial : Option Expr} :
      name.SpellsName → (∀ e ∈ initial, e.Legible) → Legible (.declare name initial)
  | block {body : List Stmt} : (∀ s ∈ body, Legible s) → Legible (.block body)
  | conditional {condition : Expr} {yes : Stmt} {no : Option Stmt} :
      condition.Legible → Legible yes → (∀ s ∈ no, Legible s) →
      Legible (.conditional condition yes no)

/-! ### Tokens of source texts -/

namespace Lexical

/-- Only a symbol has the kind of a symbol. -/
theorem Pattern.eq_symbol {text symbol : List Char} (h : Pattern text)
    (hsymbol : (symbol, kindOf text) ∈ symbols) : text = symbol := by
  have kinds : ∀ entry ∈ symbols, entry.2 ≠ .number ∧ entry.2 ≠ .string ∧
      entry.2 ∉ TokenKind.identifier :: TokenKind.keywords.map Prod.snd := by decide
  have same : ∀ entry ∈ symbols, ∀ entry' ∈ symbols, entry.2 = entry'.2 → entry.1 = entry'.1 := by
    decide
  obtain ⟨hnumber, hstring, hname⟩ := kinds _ hsymbol
  obtain ⟨c, cs, rfl⟩ := List.exists_cons_of_ne_nil h.ne_nil
  rcases h.head_cases with ⟨hdigit, -⟩ | ⟨hstart, -⟩ | ⟨rfl, -⟩ | ⟨kind, hmem⟩
  · exact absurd (kindOf_digit cs hdigit) hnumber
  · exact absurd (ofName_mem _) (kindOf_nameStart cs hstart ▸ hname)
  · exact absurd (kindOf_quote cs) hstring
  · exact same _ hmem _ hsymbol (kindOf_symbol hmem).symm

/-- Only a name that is not reserved has the kind of a name. -/
theorem Pattern.isName {text : String} (h : Pattern text.toList)
    (hkind : kindOf text.toList = .identifier) : IsName text := by
  have kinds : ∀ entry ∈ symbols, entry.2 ≠ .identifier := by decide
  obtain ⟨c, cs, hcons⟩ := List.exists_cons_of_ne_nil h.ne_nil
  have hwhole : String.ofList (c :: cs) = text := by rw [← hcons, String.ofList_toList]
  rw [hcons] at h hkind
  rcases h.head_cases with ⟨hdigit, -⟩ | ⟨hstart, hparts⟩ | ⟨rfl, -⟩ | ⟨kind, hmem⟩
  · rw [kindOf_digit cs hdigit] at hkind
    exact absurd hkind (by decide)
  · rw [kindOf_nameStart cs hstart, hwhole] at hkind
    exact ⟨⟨c, cs, hcons, hstart, hparts⟩, hkind⟩
  · rw [kindOf_quote] at hkind
    exact absurd hkind (by decide)
  · rw [kindOf_symbol hmem] at hkind
    exact absurd hkind (kinds _ hmem)

end Lexical

section Tokens

variable {source : String} {tokens : List Token} {token : Token}

open Lexical

/-- A token that is not the end is that of a pattern. -/
theorem pattern_of_mem (h : tokenize source = .ok tokens) (hmem : token ∈ tokens)
    (hend : token.kind ≠ .eof) :
    Pattern token.lexeme.toList ∧ token = tokenOf token.lexeme.toList token.line := by
  obtain ⟨lexemes, last, rfl, hlexemes⟩ := (tokenize_eq_ok_iff_tokenizes.mp h).exists_lexemes
  rcases List.mem_append.mp hmem with hmem | hmem
  · exact hlexemes token hmem
  · exact absurd (congrArg Token.kind (List.mem_singleton.mp hmem)) hend

/-- A token of the kind of a symbol is that of the symbol. -/
theorem spells_of_symbol (h : tokenize source = .ok tokens) (hmem : token ∈ tokens)
    {symbol : List Char} (hsymbol : (symbol, token.kind) ∈ symbols) :
    token.Spells token.kind (String.ofList symbol) := by
  have kinds : ∀ entry ∈ symbols, entry.2 ≠ .eof := by decide
  obtain ⟨hpattern, htoken⟩ := pattern_of_mem h hmem (kinds _ hsymbol)
  have hkind : token.kind = kindOf token.lexeme.toList := congrArg Token.kind htoken
  have htext := hpattern.eq_symbol (hkind ▸ hsymbol)
  rw [htext] at htoken hkind
  rw [Token.Spells, hkind, htoken, tokenOf, literalOf_symbol (hkind ▸ hsymbol)]

theorem spellsName_of_identifier (h : tokenize source = .ok tokens) (hmem : token ∈ tokens)
    (hkind : token.kind = .identifier) : token.SpellsName := by
  obtain ⟨hpattern, htoken⟩ := pattern_of_mem h hmem (by simp [hkind])
  have hkind' : kindOf token.lexeme.toList = .identifier :=
    (congrArg Token.kind htoken).symm.trans hkind
  have hname := hpattern.isName hkind'
  obtain ⟨c, cs, hcons, hstart, -⟩ := hname.spelled
  have hliteral : token.literal = none :=
    (congrArg Token.literal htoken).trans (hcons ▸ literalOf_nameStart cs hstart)
  refine ⟨?_, hname⟩
  rw [Token.Spells, ← hkind, ← hliteral]

/-! ### Legible trees from source texts -/

theorem UnaryOp.mem_symbols (op : UnaryOp) :
    (op.symbol.toList, op.tokenKind) ∈ Lexical.symbols := by
  cases op <;> decide

theorem BinaryOp.mem_symbols (op : BinaryOp) :
    (op.symbol.toList, op.tokenKind) ∈ Lexical.symbols := by
  cases op <;> decide

theorem UnaryOp.spells (h : tokenize source = .ok tokens) (hmem : token ∈ tokens) {op : UnaryOp}
    (hkind : token.kind = op.tokenKind) : token.Spells op.tokenKind op.symbol := by
  have := spells_of_symbol h hmem (hkind ▸ op.mem_symbols)
  rwa [hkind, String.ofList_toList] at this

theorem BinaryOp.spells (h : tokenize source = .ok tokens) (hmem : token ∈ tokens) {op : BinaryOp}
    (hkind : token.kind = op.tokenKind) : token.Spells op.tokenKind op.symbol := by
  have := spells_of_symbol h hmem (hkind ▸ op.mem_symbols)
  rwa [hkind, String.ofList_toList] at this

theorem Expr.DrawnFrom.legible (h : tokenize source = .ok tokens) {e : Expr}
    (he : e.DrawnFrom tokens) (hplain : e.IsPlain) : e.Legible := by
  induction e with
  | literal value => exact hplain value (List.mem_singleton_self _)
  | grouping inner ih =>
    exact ih he fun value hvalue => hplain value (List.mem_cons_of_mem _ hvalue)
  | unary op token right ih =>
    obtain ⟨⟨hmem, hkind⟩, hright⟩ := he
    exact ⟨op.spells h hmem hkind,
      ih hright fun value hvalue => hplain value (List.mem_cons_of_mem _ hvalue)⟩
  | binary left op token right ihleft ihright =>
    obtain ⟨hleft, ⟨hmem, hkind⟩, hright⟩ := he
    refine ⟨ihleft hleft fun value hvalue => ?_, op.spells h hmem hkind,
      ihright hright fun value hvalue => ?_⟩
    · exact hplain value (List.mem_cons_of_mem _ (List.mem_append_left _ hvalue))
    · exact hplain value (List.mem_cons_of_mem _ (List.mem_append_right _ hvalue))
  | «variable» name => exact spellsName_of_identifier h he.1 he.2
  | assign name value ih =>
    exact ⟨spellsName_of_identifier h he.1.1 he.1.2,
      ih he.2 fun value hvalue => hplain value (List.mem_cons_of_mem _ hvalue)⟩

theorem Stmt.DrawnFrom.legible (h : tokenize source = .ok tokens) {s : Stmt}
    (hs : s.DrawnFrom tokens) (hplain : ∀ value, .literal value ∈ s.expressions → value.IsPlain) :
    s.Legible := by
  induction hs with
  | expression he => exact .expression (he.legible h hplain)
  | print he => exact .print (he.legible h hplain)
  | declare hname hinitial =>
    exact .declare (spellsName_of_identifier h hname.1 hname.2) fun e he =>
      (hinitial e he).legible h fun value hvalue =>
        hplain value (mem_expressions_declare.mpr ⟨e, he, hvalue⟩)
  | block hbody ih =>
    exact .block fun s hs => ih s hs fun value hvalue =>
      hplain value (mem_expressions_block.mpr ⟨s, hs, hvalue⟩)
  | conditional hcondition hyes hno ihyes ihno =>
    simp only [mem_expressions_conditional] at hplain
    exact .conditional (hcondition.legible h fun value hvalue => hplain value (.inl hvalue))
      (ihyes fun value hvalue => hplain value (.inr (.inl hvalue)))
      fun s hs => ihno s hs fun value hvalue => hplain value (.inr (.inr ⟨s, hs, hvalue⟩))

/-- What stands in an expression is drawn from the same tokens. -/
theorem Expr.DrawnFrom.part {e part : Expr} (he : e.DrawnFrom tokens) (hpart : part ∈ e.parts) :
    part.DrawnFrom tokens := by
  induction e with
  | literal | «variable» =>
    rwa [List.mem_singleton.mp hpart]
  | grouping inner ih =>
    rcases List.mem_cons.mp hpart with rfl | hpart
    · exact he
    · exact ih he hpart
  | unary op token right ih =>
    rcases List.mem_cons.mp hpart with rfl | hpart
    · exact he
    · exact ih he.2 hpart
  | binary left op token right ihleft ihright =>
    rcases List.mem_cons.mp hpart with rfl | hpart
    · exact he
    · rcases List.mem_append.mp hpart with hpart | hpart
      · exact ihleft he.1 hpart
      · exact ihright he.2.2 hpart
  | assign name value ih =>
    rcases List.mem_cons.mp hpart with rfl | hpart
    · exact he
    · exact ih he.2 hpart

theorem Stmt.DrawnFrom.part {s : Stmt} {part : Expr} (hs : s.DrawnFrom tokens)
    (hpart : part ∈ s.expressions) : part.DrawnFrom tokens := by
  induction hs with
  | expression he => exact he.part hpart
  | print he => exact he.part hpart
  | declare hname hinitial =>
    obtain ⟨e, he, hpart⟩ := mem_expressions_declare.mp hpart
    exact (hinitial e he).part hpart
  | block hbody ih =>
    obtain ⟨s, hs, hpart⟩ := mem_expressions_block.mp hpart
    exact ih s hs hpart
  | conditional hcondition hyes hno ihyes ihno =>
    rcases mem_expressions_conditional.mp hpart with hpart | hpart | ⟨s, hs, hpart⟩
    · exact hcondition.part hpart
    · exact ihyes hpart
    · exact ihno s hs hpart

end Tokens

/-- **Programs of source texts are legible**, where their literals are. -/
theorem Program.FromSource.legible {program : Program} (h : program.FromSource)
    (hplain : program.IsPlain) : ∀ s ∈ program, s.Legible := by
  obtain ⟨lenient, source, hsource⟩ := h
  obtain ⟨tokens, htokens, hparse⟩ := Program.ofSource_eq_ok_iff.mp hsource
  intro s hs
  refine (Grammar.drawnFrom_of_parse hparse s hs).legible htokens
    fun value hvalue => hplain value ?_
  rw [Stmt.expressionsAll_eq_flatMap]
  exact List.mem_flatMap.mpr ⟨s, hs, hvalue⟩

/-- **Expressions of source texts are legible**, where their literals are. -/
theorem Expr.FromSource.legible {e : Expr} (h : e.FromSource) (hplain : e.IsPlain) : e.Legible := by
  obtain ⟨program, ⟨lenient, source, hsource⟩, he⟩ := h
  obtain ⟨tokens, htokens, hparse⟩ := Program.ofSource_eq_ok_iff.mp hsource
  rw [Stmt.expressionsAll_eq_flatMap] at he
  obtain ⟨s, hs, he⟩ := List.mem_flatMap.mp he
  exact ((Grammar.drawnFrom_of_parse hparse s hs).part he).legible htokens hplain

end LoxLang
