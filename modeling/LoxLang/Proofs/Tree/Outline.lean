import LoxLang.Proofs.Tree.Labels
import LoxLang.Proofs.Tree.Lines

/-!
# Reading the parenthesized text

In the parenthesized text of a tree every node has its own pair of parentheses, so the text tells
its outline: which words stand together (`Outline.text_append_inj`). The number of words that stand
together tells one minus from the other, so the outline tells the tree
(`Program.mapLine_eq_of_render`).
-/

namespace LoxLang

/-! ### Outlines -/

/-- Words, and parenthesized nodes with a word in front. -/
inductive Outline where
  | word (text : String)
  | node (name : String) (parts : List Outline)

namespace Outline

mutual

/-- The characters of an outline. -/
def text : Outline → List Char
  | .word text => text.toList
  | .node name parts => '(' :: (name.toList ++ (textAll parts ++ [')']))

/-- The characters of outlines, each after a blank. -/
def textAll : List Outline → List Char
  | [] => []
  | o :: rest => ' ' :: (o.text ++ textAll rest)

end

theorem textAll_eq_flatMap (parts : List Outline) :
    textAll parts = parts.flatMap fun o => ' ' :: o.text := by
  induction parts with
  | nil => rfl
  | cons o rest ih => rw [textAll, ih, List.flatMap_cons, List.cons_append]

/-- Each word in the outline stands between marks. -/
inductive IsClean : Outline → Prop where
  | word {text : String} : IsWord text → IsClean (.word text)
  | node {name : String} {parts : List Outline} :
      IsWord name → (∀ o ∈ parts, IsClean o) → IsClean (.node name parts)

/-- No word begins like a node. -/
theorem word_append_ne {word : String} (h : IsWord word) (rest text : List Char) :
    word.toList ++ rest ≠ '(' :: text := by
  obtain ⟨c, cs, hcons⟩ := List.exists_cons_of_ne_nil h.ne_nil
  intro heq
  rw [hcons, List.cons_append, List.cons.injEq] at heq
  exact h.2 c (by simp [hcons]) (by simp [heq.1, marks])

theorem atMark_textAll (parts : List Outline) (rest : List Char) :
    AtMark (textAll parts ++ ')' :: rest) := by
  cases parts <;> simp [textAll, AtMark, marks]

mutual

/-- **An outline and what comes after it can be told apart.** -/
theorem text_append_inj {o o' : Outline} {rest rest' : List Char} (h : o.IsClean) (h' : o'.IsClean)
    (hrest : AtMark rest) (hrest' : AtMark rest') (heq : o.text ++ rest = o'.text ++ rest') :
    o = o' ∧ rest = rest' := by
  cases h with
  | @word word hword =>
    cases h' with
    | word hword' =>
      obtain ⟨rfl, rfl⟩ := hword.append_inj hword' hrest hrest' heq
      exact ⟨rfl, rfl⟩
    | node => exact absurd heq (word_append_ne hword _ _)
  | @node name parts hname hparts =>
    cases h' with
    | word hword' => exact absurd heq.symm (word_append_ne hword' _ _)
    | @node name' parts' hname' hparts' =>
      simp only [text, List.cons_append, List.append_assoc, List.cons.injEq, true_and,
        List.nil_append] at heq
      obtain ⟨rfl, htail⟩ :=
        hname.append_inj hname' (atMark_textAll _ _) (atMark_textAll _ _) heq
      obtain ⟨rfl, rfl⟩ := textAll_append_inj hparts hparts' htail
      exact ⟨rfl, rfl⟩

/-- Outlines up to a closing parenthesis can be told from what comes after it. -/
theorem textAll_append_inj {parts parts' : List Outline} {rest rest' : List Char}
    (h : ∀ o ∈ parts, o.IsClean) (h' : ∀ o ∈ parts', o.IsClean)
    (heq : textAll parts ++ ')' :: rest = textAll parts' ++ ')' :: rest') :
    parts = parts' ∧ rest = rest' := by
  match parts, parts' with
  | [], [] => simpa [textAll] using heq
  | [], o' :: parts' => simp [textAll] at heq
  | o :: parts, [] => simp [textAll] at heq
  | o :: parts, o' :: parts' =>
    simp only [textAll, List.cons_append, List.append_assoc, List.cons.injEq, true_and] at heq
    rw [List.forall_mem_cons] at h h'
    obtain ⟨rfl, htail⟩ :=
      text_append_inj h.1 h'.1 (atMark_textAll _ _) (atMark_textAll _ _) heq
    obtain ⟨rfl, rfl⟩ := textAll_append_inj h.2 h'.2 htail
    exact ⟨rfl, rfl⟩

end

/-! ### Nodes and lines -/

/-- A node that is written from its parts. -/
theorem toList_node {name : String} {texts : List String} {parts : List Outline}
    (h : texts.map String.toList = parts.map text) :
    (TreeStyle.parenthesized.node name texts).toList = (node name parts).text := by
  have hparts : (texts.map fun part => ' ' :: part.toList) = parts.map fun o => ' ' :: o.text := by
    simpa [Function.comp_def] using congrArg (List.map (' ' :: ·)) h
  rw [TreeStyle.node, text, textAll_eq_flatMap, List.flatMap_def, ← hparts]
  simp [String.toList_join, List.flatMap_def, Function.comp_def]

/-- The characters of outlines, each on its own line. -/
def lines (parts : List Outline) : List Char := ['\n'].intercalate (parts.map text)

theorem IsClean.text_ne_nil {o : Outline} (h : o.IsClean) : o.text ≠ [] := by
  cases h with
  | word hword => exact hword.ne_nil
  | node => simp [text]

/-- What comes after the first line. -/
def afterLine : List Outline → List Char
  | [] => []
  | rest => '\n' :: lines rest

theorem lines_cons (o : Outline) (rest : List Outline) :
    lines (o :: rest) = o.text ++ afterLine rest := by
  cases rest with
  | nil => simp [lines, afterLine]
  | cons o' rest => simp [lines, afterLine, List.intercalate_cons_cons]

theorem lines_eq_tail (rest : List Outline) : lines rest = (afterLine rest).tail := by
  cases rest <;> rfl

theorem atMark_afterLine (rest : List Outline) : AtMark (afterLine rest) := by
  cases rest <;> simp [afterLine, AtMark, marks]

/-- Outlines on their own lines can be told apart. -/
theorem lines_inj {parts parts' : List Outline} (h : ∀ o ∈ parts, o.IsClean)
    (h' : ∀ o ∈ parts', o.IsClean) (heq : lines parts = lines parts') : parts = parts' := by
  have hcons {o : Outline} (rest : List Outline) (ho : o.IsClean) : lines (o :: rest) ≠ [] := by
    rw [lines_cons]
    exact fun hnil => ho.text_ne_nil (List.append_eq_nil_iff.mp hnil).1
  induction parts generalizing parts' with
  | nil =>
    cases parts' with
    | nil => rfl
    | cons o' parts' => exact absurd heq.symm (hcons parts' (h' o' List.mem_cons_self))
  | cons o parts ih =>
    cases parts' with
    | nil => exact absurd heq (hcons parts (h o List.mem_cons_self))
    | cons o' parts' =>
      rw [List.forall_mem_cons] at h h'
      rw [lines_cons, lines_cons] at heq
      obtain ⟨rfl, hafter⟩ :=
        text_append_inj h.1 h'.1 (atMark_afterLine parts) (atMark_afterLine parts') heq
      rw [ih h.2 h'.2 (by rw [lines_eq_tail, hafter, ← lines_eq_tail])]

end Outline

/-! ### Outlines of trees -/

/-- The outline of an expression. -/
def Expr.outline : Expr → Outline
  | .literal value => .word value.literalText
  | .variable name => .word name.lexeme
  | .grouping inner => .node "group" [inner.outline]
  | .unary op _ right => .node op.symbol [right.outline]
  | .binary left op _ right => .node op.symbol [left.outline, right.outline]
  | .assign name value => .node "=" [.word name.lexeme, value.outline]

mutual

/-- The outline of a statement. -/
def Stmt.outline : Stmt → Outline
  | .expression e => .node ";" [e.outline]
  | .print e => .node "print" [e.outline]
  | .declare name none => .node "var" [.word name.lexeme]
  | .declare name (some initial) => .node "var" [.word name.lexeme, initial.outline]
  | .block body => .node "block" (Stmt.outlineAll body)
  | .conditional condition yes none => .node "if" [condition.outline, yes.outline]
  | .conditional condition yes (some no) =>
    .node "if" [condition.outline, yes.outline, no.outline]

/-- The outlines of statements in order. -/
def Stmt.outlineAll : List Stmt → List Outline
  | [] => []
  | s :: rest => s.outline :: Stmt.outlineAll rest

end

theorem Stmt.outlineAll_eq_map (body : List Stmt) :
    Stmt.outlineAll body = body.map Stmt.outline := by
  induction body with
  | nil => rfl
  | cons s rest ih => rw [Stmt.outlineAll, ih, List.map_cons]

theorem Stmt.renderAll_eq_map (style : TreeStyle) (body : List Stmt) :
    Stmt.renderAll style body = body.map (Stmt.render style) := by
  induction body with
  | nil => rfl
  | cons s rest ih => rw [Stmt.renderAll, ih, List.map_cons]

theorem Expr.toList_render (e : Expr) : (e.render .parenthesized).toList = e.outline.text := by
  induction e with
  | literal | «variable» => rfl
  | grouping inner ih => exact Outline.toList_node (by simp [ih])
  | unary op token right ih => exact Outline.toList_node (by simp [ih])
  | binary left op token right ihleft ihright =>
    exact Outline.toList_node (by simp [ihleft, ihright])
  | assign name value ih => exact Outline.toList_node (by simp [ih, Outline.text])

theorem Stmt.toList_render (s : Stmt) : (s.render .parenthesized).toList = s.outline.text := by
  induction s using Stmt.induct with
  | expression e => exact Outline.toList_node (by simp [Expr.toList_render])
  | print e => exact Outline.toList_node (by simp [Expr.toList_render])
  | declare name initial =>
    cases initial with
    | none => exact Outline.toList_node (by simp [Outline.text])
    | some initial => exact Outline.toList_node (by simp [Expr.toList_render, Outline.text])
  | block body ih =>
    refine Outline.toList_node ?_
    rw [Stmt.renderAll_eq_map, Stmt.outlineAll_eq_map, List.map_map, List.map_map]
    exact List.map_congr_left ih
  | conditional condition yes no ihyes ihno =>
    cases no with
    | none => exact Outline.toList_node (by simp [Expr.toList_render, ihyes])
    | some no => exact Outline.toList_node (by simp [Expr.toList_render, ihyes, ihno no rfl])

theorem Program.toList_render (program : Program) :
    (program.render .parenthesized).toList = Outline.lines (program.map Stmt.outline) := by
  rw [Program.render, String.toList_intercalate, Stmt.renderAll_eq_map, Outline.lines, List.map_map,
    List.map_map]
  congr 1
  exact List.map_congr_left fun s _ => s.toList_render

/-! ### The words of legible trees -/

theorem UnaryOp.isWord_symbol (op : UnaryOp) : IsWord op.symbol :=
  @Label.Legible.isWord (.unary op) trivial

theorem BinaryOp.isWord_symbol (op : BinaryOp) : IsWord op.symbol :=
  @Label.Legible.isWord (.binary op) trivial

theorem Expr.Legible.isClean {e : Expr} (h : e.Legible) : e.outline.IsClean := by
  induction e with
  | literal value => exact .word (@Label.Legible.isWord (.literal value) h)
  | «variable» name => exact .word h.2.isWord
  | grouping inner ih => exact .node (by decide) (by simpa using ih h)
  | unary op token right ih => exact .node op.isWord_symbol (by simpa using ih h.2)
  | binary left op token right ihleft ihright =>
    exact .node op.isWord_symbol (by simpa using ⟨ihleft h.1, ihright h.2.2⟩)
  | assign name value ih =>
    exact .node (by decide) (by simpa using ⟨.word h.1.2.isWord, ih h.2⟩)

theorem Stmt.Legible.isClean {s : Stmt} (h : s.Legible) : s.outline.IsClean := by
  induction h with
  | expression he => exact .node (by decide) (by simpa using he.isClean)
  | print he => exact .node (by decide) (by simpa using he.isClean)
  | @declare name initial hname hinitial =>
    cases initial with
    | none => exact .node (by decide) (by simpa using .word hname.2.isWord)
    | some initial =>
      exact .node (by decide)
        (by simpa using ⟨.word hname.2.isWord, (hinitial initial rfl).isClean⟩)
  | block hbody ih =>
    refine .node (by decide) ?_
    rw [Stmt.outlineAll_eq_map]
    exact List.forall_mem_map.mpr ih
  | @conditional condition yes no hcondition hyes hno ihyes ihno =>
    cases no with
    | none => exact .node (by decide) (by simpa using ⟨hcondition.isClean, ihyes⟩)
    | some no => exact .node (by decide) (by simpa using ⟨hcondition.isClean, ihyes, ihno no rfl⟩)

/-! ### Outlines tell the trees -/

theorem Token.Spells.mapLine_eq {token token' : Token} {kind : TokenKind} {lexeme : String}
    (h : token.Spells kind lexeme) (h' : token'.Spells kind lexeme) :
    token.mapLine (fun _ => 0) = token'.mapLine fun _ => 0 :=
  h.mapLine_zero.trans h'.mapLine_zero.symm

theorem Token.SpellsName.mapLine_eq {name name' : Token} (h : name.SpellsName)
    (h' : name'.SpellsName) (hlexeme : name.lexeme = name'.lexeme) :
    name.mapLine (fun _ => 0) = name'.mapLine fun _ => 0 :=
  h.1.mapLine_eq (hlexeme ▸ h'.1)

/-- A literal is told by its word, also from names. -/
theorem Label.eq_of_word {value : Value} {label : Label} (h : value.IsPlain) (h' : label.Legible)
    (hword : Outline.word value.literalText = .word label.text) : .literal value = label :=
  @Label.eq_of_text_of_not_isMinus (.literal value) label h h' rfl (Outline.word.inj hword)

/-- **The outline tells the expression**, but for the lines. -/
theorem Expr.mapLine_eq_of_outline {e e' : Expr} (h : e.Legible) (h' : e'.Legible)
    (heq : e.outline = e'.outline) : e.mapLine (fun _ => 0) = e'.mapLine fun _ => 0 := by
  induction e generalizing e' with
  | literal value =>
    cases e' with
    | literal value' => rw [Label.literal.inj (@Label.eq_of_word _ (.literal value') h h' heq)]
    | «variable» name => cases @Label.eq_of_word _ (.name name.lexeme) h h'.2 heq
    | _ => cases heq
  | «variable» name =>
    cases e' with
    | literal value => cases @Label.eq_of_word _ (.name name.lexeme) h' h.2 heq.symm
    | «variable» name' => exact congrArg Expr.variable (h.mapLine_eq h' (Outline.word.inj heq))
    | _ => cases heq
  | grouping inner ih =>
    cases e' with
    | grouping inner' =>
      simp only [Expr.outline, Outline.node.injEq, List.cons.injEq, and_true, true_and] at heq
      exact congrArg Expr.grouping (ih h h' heq)
    | unary op => cases op <;> simp [Expr.outline, UnaryOp.symbol] at heq
    | _ => simp [Expr.outline] at heq
  | unary op token right ih =>
    cases e' with
    | grouping => cases op <;> simp [Expr.outline, UnaryOp.symbol] at heq
    | unary op' token' right' =>
      simp only [Expr.outline, Outline.node.injEq, List.cons.injEq, and_true] at heq
      obtain rfl := UnaryOp.symbol_injective heq.1
      simp only [Expr.mapLine, h.1.mapLine_eq h'.1, ih h.2 h'.2 heq.2]
    | _ => simp [Expr.outline] at heq
  | binary left op token right ihleft ihright =>
    cases e' with
    | binary left' op' token' right' =>
      simp only [Expr.outline, Outline.node.injEq, List.cons.injEq, and_true] at heq
      obtain ⟨hsymbol, hleft, hright⟩ := heq
      obtain rfl := BinaryOp.symbol_injective hsymbol
      simp only [Expr.mapLine, h.2.1.mapLine_eq h'.2.1, ihleft h.1 h'.1 hleft,
        ihright h.2.2 h'.2.2 hright]
    | assign => cases op <;> simp [Expr.outline, BinaryOp.symbol] at heq
    | _ => simp [Expr.outline] at heq
  | assign name value ih =>
    cases e' with
    | binary left op => cases op <;> simp [Expr.outline, BinaryOp.symbol] at heq
    | assign name' value' =>
      simp only [Expr.outline, Outline.node.injEq, List.cons.injEq, Outline.word.injEq, and_true,
        true_and] at heq
      simp only [Expr.mapLine, h.1.mapLine_eq h'.1 heq.1, ih h.2 h'.2 heq.2]
    | _ => simp [Expr.outline] at heq

/-- Statements are told by their outlines if each is. -/
theorem Stmt.map_mapLine_eq_of_outline {body body' : List Stmt}
    (hbody : ∀ s ∈ body, ∀ s' ∈ body', s.outline = s'.outline →
      s.mapLine (fun _ => 0) = s'.mapLine fun _ => 0)
    (heq : body.map Stmt.outline = body'.map Stmt.outline) :
    body.map (Stmt.mapLine fun _ => 0) = body'.map (Stmt.mapLine fun _ => 0) := by
  induction body generalizing body' with
  | nil => rw [List.map_eq_nil_iff.mp heq.symm]
  | cons s body ih =>
    obtain ⟨s', body', rfl, hs, hrest⟩ := List.map_eq_cons_iff.mp heq.symm
    rw [List.map_cons, List.map_cons, hbody s List.mem_cons_self s' List.mem_cons_self hs.symm,
      ih (fun s hs s' hs' => hbody s (List.mem_cons_of_mem _ hs) s' (List.mem_cons_of_mem _ hs'))
        hrest.symm]

/-- The name of a statement's node. -/
def Stmt.nodeName : Stmt → String
  | .expression _ => ";"
  | .print _ => "print"
  | .declare _ _ => "var"
  | .block _ => "block"
  | .conditional _ _ _ => "if"

theorem Stmt.nodeName_eq_of_outline {s s' : Stmt} (h : s.outline = s'.outline) :
    s.nodeName = s'.nodeName := by
  have hnode (s : Stmt) : ∃ parts, s.outline = .node s.nodeName parts := by
    unfold Stmt.outline
    split <;> exact ⟨_, rfl⟩
  obtain ⟨parts, hparts⟩ := hnode s
  obtain ⟨parts', hparts'⟩ := hnode s'
  rw [hparts, hparts'] at h
  exact (Outline.node.inj h).1

/-- **The outline tells the statement**, but for the lines. -/
theorem Stmt.mapLine_eq_of_outline {s s' : Stmt} (h : s.Legible) (h' : s'.Legible)
    (heq : s.outline = s'.outline) : s.mapLine (fun _ => 0) = s'.mapLine fun _ => 0 := by
  have hname := Stmt.nodeName_eq_of_outline heq
  induction h generalizing s' with
  | @expression e he =>
    cases h' with
    | expression he' =>
      simp only [Stmt.outline, Outline.node.injEq, List.cons.injEq, and_true, true_and] at heq
      exact congrArg Stmt.expression (Expr.mapLine_eq_of_outline he he' heq)
    | _ => simp [Stmt.nodeName] at hname
  | @print e he =>
    cases h' with
    | print he' =>
      simp only [Stmt.outline, Outline.node.injEq, List.cons.injEq, and_true, true_and] at heq
      exact congrArg Stmt.print (Expr.mapLine_eq_of_outline he he' heq)
    | _ => simp [Stmt.nodeName] at hname
  | @declare name initial hdeclared hinitial =>
    cases h' with
    | @declare name' initial' hdeclared' hinitial' =>
      cases initial <;> cases initial' <;>
        simp only [Stmt.outline, Outline.node.injEq, List.cons.injEq, Outline.word.injEq, and_true,
          true_and, reduceCtorEq, and_false] at heq
      · rw [Stmt.mapLine, Stmt.mapLine, hdeclared.mapLine_eq hdeclared' heq]
      · rw [Stmt.mapLine, Stmt.mapLine, hdeclared.mapLine_eq hdeclared' heq.1,
          Expr.mapLine_eq_of_outline (hinitial _ rfl) (hinitial' _ rfl) heq.2]
    | _ => simp [Stmt.nodeName] at hname
  | @block body hbody ih =>
    cases h' with
    | @block body' hbody' =>
      simp only [Stmt.outline, Outline.node.injEq, true_and, Stmt.outlineAll_eq_map] at heq
      rw [Stmt.mapLine_block, Stmt.mapLine_block]
      refine congrArg Stmt.block (Stmt.map_mapLine_eq_of_outline (fun s hs s' hs' hsame => ?_) heq)
      exact ih s hs (hbody' s' hs') hsame (Stmt.nodeName_eq_of_outline hsame)
    | _ => simp [Stmt.nodeName] at hname
  | @conditional condition yes no hcondition hyes hno ihyes ihno =>
    cases h' with
    | @conditional condition' yes' no' hcondition' hyes' hno' =>
      cases no <;> cases no' <;>
        simp only [Stmt.outline, Outline.node.injEq, List.cons.injEq, and_true,
          true_and, reduceCtorEq, and_false] at heq
      · rw [Stmt.mapLine, Stmt.mapLine, Expr.mapLine_eq_of_outline hcondition hcondition' heq.1,
          ihyes hyes' heq.2 (Stmt.nodeName_eq_of_outline heq.2)]
      · rw [Stmt.mapLine, Stmt.mapLine, Expr.mapLine_eq_of_outline hcondition hcondition' heq.1,
          ihyes hyes' heq.2.1 (Stmt.nodeName_eq_of_outline heq.2.1),
          ihno _ rfl (hno' _ rfl) heq.2.2 (Stmt.nodeName_eq_of_outline heq.2.2)]
    | _ => simp [Stmt.nodeName] at hname

/-- **The parenthesized text tells the program.** Programs that are read from source texts, without
strings and with finite numbers only, have different texts if they differ in more than the lines. -/
theorem Program.mapLine_eq_of_render {program other : Program} (h : program.FromSource)
    (h' : other.FromSource) (hplain : program.IsPlain) (hplain' : other.IsPlain)
    (hrender : program.render .parenthesized = other.render .parenthesized) :
    program.map (Stmt.mapLine fun _ => 0) = other.map (Stmt.mapLine fun _ => 0) := by
  have hlegible := h.legible hplain
  have hlegible' := h'.legible hplain'
  have hlines := congrArg String.toList hrender
  rw [Program.toList_render, Program.toList_render] at hlines
  have houtlines := Outline.lines_inj (List.forall_mem_map.mpr fun s hs => (hlegible s hs).isClean)
    (List.forall_mem_map.mpr fun s hs => (hlegible' s hs).isClean) hlines
  exact Stmt.map_mapLine_eq_of_outline (fun s hs s' hs' =>
    Stmt.mapLine_eq_of_outline (hlegible s hs) (hlegible' s' hs')) houtlines

/-- An assignment of a negative number on the given line, or else an empty block. -/
def assignOrSkip (line : Nat) (number : Value) : Program :=
  [.conditional (.variable ⟨.identifier, "a", none, 1⟩)
    (.expression (.assign ⟨.identifier, "b", none, line⟩
      (.unary .negate ⟨.minus, "-", none, line⟩ (.literal number))))
    (some (.block []))]

theorem isPlain_assignOrSkip {line : Nat} {number : Value} (h : number.IsPlain) :
    Program.IsPlain (assignOrSkip line number) := by
  intro value hvalue
  simp only [assignOrSkip, Stmt.expressionsAll, Stmt.expressions, Expr.parts, List.append_nil,
    List.mem_append, List.mem_cons, List.not_mem_nil, reduceCtorEq, or_false, false_or,
    Expr.literal.injEq] at hvalue
  rwa [hvalue]

/-- The same program on one line and on two, and with its number spelled in two ways. -/
theorem Program.mapLine_eq_of_render_assignOrSkip :
    let one := Piece.numberValue ['1'] []
    let spelledLonger := Piece.numberValue ['0', '1'] ['0']
    Program.ofSource false "if (a) b = -1; else \x7b \x7d" = .ok (assignOrSkip 1 one) ∧
    Program.ofSource true "if(a)\nb = - 01.0; else \x7b\x7d" =
      .ok (assignOrSkip 2 spelledLonger) ∧
    Program.render .parenthesized (assignOrSkip 1 one) = "(if a (; (= b (- 1))) (block))" ∧
    (assignOrSkip 1 one).map (Stmt.mapLine fun _ => 0) =
      (assignOrSkip 2 spelledLonger).map (Stmt.mapLine fun _ => 0) := by
  intro one spelledLonger
  have h : Program.ofSource false "if (a) b = -1; else \x7b \x7d" = .ok (assignOrSkip 1 one) := by
    decide +kernel
  have h' : Program.ofSource true "if(a)\nb = - 01.0; else \x7b\x7d" =
      .ok (assignOrSkip 2 spelledLonger) := by
    decide +kernel
  have hplain : one.IsPlain := show Float.isFinite _ = true by decide +kernel
  have hplain' : spelledLonger.IsPlain := show Float.isFinite _ = true by decide +kernel
  have hrender : Program.render .parenthesized (assignOrSkip 1 one) =
      "(if a (; (= b (- 1))) (block))" := by decide +kernel
  have hrender' : Program.render .parenthesized (assignOrSkip 2 spelledLonger) =
      "(if a (; (= b (- 1))) (block))" := by decide +kernel
  exact ⟨h, h', hrender, Program.mapLine_eq_of_render ⟨_, _, h⟩ ⟨_, _, h'⟩
    (isPlain_assignOrSkip hplain) (isPlain_assignOrSkip hplain') (hrender.trans hrender'.symm)⟩

end LoxLang
