import LoxLang.Proofs.Tree.Parts
import LoxLang.Proofs.Value.Display
import LoxLang.Tree.Render

/-!
# The words in the text of a tree

The text of a tree is made of words: literals, names and the symbols of operators (`Label`). A word
tells what it stands for, with one exception (`Label.alike_of_text`): the minus sign stands for the
operator before its operand and for the one between its operands.
-/

namespace LoxLang

/-! ### Words -/

/-- The characters between the words of a text. -/
def marks : List Char := [' ', '(', ')', '\n']

/-- The text can stand between marks. -/
def IsWord (text : String) : Prop := text ≠ "" ∧ ∀ c ∈ text.toList, c ∉ marks

instance (text : String) : Decidable (IsWord text) :=
  decidable_of_iff (text ≠ "" ∧ text.toList.all (· ∉ marks) = true) (by simp [IsWord])

/-- Characters of a class that has no mark are none. -/
theorem not_mem_marks (p : Char → Bool) {c : Char} (hc : p c = true) (hp : marks.any p = false) :
    c ∉ marks :=
  fun hmem => absurd (List.any_eq_true.mpr ⟨c, hmem, hc⟩) (by simp [hp])

theorem IsName.isWord {text : String} (h : IsName text) : IsWord text := by
  obtain ⟨c, cs, htext, hstart, hparts⟩ := h.spelled
  refine ⟨fun hempty => by simp [hempty] at htext, ?_⟩
  rw [htext, List.forall_mem_cons]
  exact ⟨not_mem_marks Piece.isNameStart hstart rfl, fun d hd =>
    not_mem_marks Piece.isNamePart (hparts d hd) rfl⟩

theorem IsWord.ne_nil {text : String} (h : IsWord text) : text.toList ≠ [] :=
  fun hnil => h.1 (String.toList_eq_nil_iff.mp hnil)

/-- The text begins with a mark, or it is empty. -/
def AtMark (rest : List Char) : Prop := ∀ c ∈ rest.head?, c ∈ marks

/-- A word and what comes after it can be told apart. -/
theorem IsWord.append_inj {word word' : String} {rest rest' : List Char} (h : IsWord word)
    (h' : IsWord word') (hrest : AtMark rest) (hrest' : AtMark rest')
    (heq : word.toList ++ rest = word'.toList ++ rest') : word = word' ∧ rest = rest' := by
  have hsplit {word : String} {rest : List Char} (h : IsWord word) (hrest : AtMark rest) :
      (word.toList ++ rest).takeWhile (· ∉ marks) = word.toList ∧
        (word.toList ++ rest).dropWhile (· ∉ marks) = rest :=
    ⟨Lexical.takeWhile_append_of_all (by simpa using h.2) (by simpa [AtMark] using hrest),
      Lexical.dropWhile_append_of_all (by simpa using h.2) (by simpa [AtMark] using hrest)⟩
  obtain ⟨htake, hdrop⟩ := hsplit h hrest
  obtain ⟨htake', hdrop'⟩ := hsplit h' hrest'
  rw [heq] at htake hdrop
  exact ⟨String.toList_inj.mp (htake.symm.trans htake'), hdrop.symm.trans hdrop'⟩

/-! ### Numbers -/

/-- The characters of numbers in digits. -/
def isNumberPart (c : Char) : Bool := c.isDigit || c == '-' || c == '.'

theorem not_nameStart_of_numberPart {c : Char} (h : isNumberPart c = true) :
    Piece.isNameStart c = false := by
  simp only [isNumberPart, Bool.or_eq_true, beq_iff_eq] at h
  rcases h with (hdigit | rfl) | rfl
  · rw [Bool.eq_false_iff]
    intro hstart
    exact absurd hdigit (by simp [Lexical.not_digit_of_nameStart hstart])
  · rfl
  · rfl

namespace Value

/-- A finite literal is written with digits, and perhaps with a sign and a point. -/
theorem literalNumber_chars {x : Float} (hx : x.isFinite = true) :
    (∃ d ∈ (literalNumber.write x).toList, d.isDigit = true) ∧
      ∀ d ∈ (literalNumber.write x).toList, isNumberPart d = true := by
  have hrank := Decimal.rank_lt_of_isFinite hx
  obtain ⟨c, cs, htext, hc, hcs⟩ := (Decimal.shortest (Decimal.rank x)).positional_form
  have hmagnitude : literalNumber.writeMagnitude (Decimal.rank x) = c :: cs := by
    rw [NumberFormat.writeMagnitude, if_neg hrank.ne]
    exact htext
  have hparts : ∀ d ∈ c :: cs, isNumberPart d = true := by
    rw [List.forall_mem_cons]
    refine ⟨by simp [isNumberPart, hc], fun d hd => ?_⟩
    rcases hcs d hd with hdigit | rfl
    · simp [isNumberPart, hdigit]
    · rfl
  rw [NumberFormat.toList_write, if_neg hrank.not_gt, hmagnitude]
  split
  · exact ⟨⟨c, by simp, hc⟩, List.forall_mem_cons.mpr ⟨rfl, hparts⟩⟩
  · exact ⟨⟨c, by simp, hc⟩, hparts⟩

end Value

/-! ### Labels -/

/-- What a word in the text of an expression stands for. -/
inductive Label where
  | literal (value : Value)
  | name (lexeme : String)
  | unary (op : UnaryOp)
  | binary (op : BinaryOp)
  | assign
  deriving DecidableEq

namespace Label

/-- The word of a label. -/
def text : Label → String
  | .literal value => value.literalText
  | .name lexeme => lexeme
  | .unary op => op.symbol
  | .binary op => op.symbol
  | .assign => "="

/-- Labels in legible trees. -/
def Legible : Label → Prop
  | .literal value => value.IsPlain
  | .name lexeme => IsName lexeme
  | .unary _ | .binary _ | .assign => True

/-- The labels that are no operands. -/
def operators : List Label :=
  [.unary .negate, .unary .not, .binary .equal, .binary .notEqual, .binary .lessThan,
    .binary .lessThanOrEqual, .binary .greaterThan, .binary .greaterThanOrEqual, .binary .plus,
    .binary .minus, .binary .multiply, .binary .divide, .assign]

/-- The labels with reserved words. -/
def reserved : List Label := [.literal (.boolean true), .literal (.boolean false), .literal .nil]

/-- The label is one of the two that share a symbol. -/
def isMinus : Label → Bool
  | .unary .negate | .binary .minus => true
  | _ => false

/-- The labels are the same, or both minus signs. -/
def Alike (label other : Label) : Prop :=
  label = other ∨ (label.isMinus = true ∧ other.isMinus = true)

variable {label other : Label}

/-- A legible label is an operator, a finite number, or spelled like a name. -/
theorem Legible.cases (h : label.Legible) :
    label ∈ operators ∨ (∃ x : Float, x.isFinite = true ∧ label = .literal (.number x)) ∨
      label ∈ reserved ∨ ∃ lexeme, IsName lexeme ∧ label = .name lexeme := by
  cases label with
  | unary op => cases op <;> exact .inl (by decide)
  | binary op => cases op <;> exact .inl (by decide)
  | assign => exact .inl (by decide)
  | name lexeme => exact .inr (.inr (.inr ⟨lexeme, h, rfl⟩))
  | literal value =>
    cases value with
    | number x => exact .inr (.inl ⟨x, h, rfl⟩)
    | string s => exact absurd h id
    | boolean b => cases b <;> exact .inr (.inr (.inl (by decide)))
    | nil => exact .inr (.inr (.inl (by decide)))

/-- **The word of a legible label is one.** -/
theorem Legible.isWord (h : label.Legible) : IsWord label.text := by
  have hoperators : ∀ label ∈ operators, IsWord label.text := by decide
  have hreserved : ∀ label ∈ reserved, IsWord label.text := by decide
  rcases h.cases with hoperator | ⟨x, hx, rfl⟩ | hword | ⟨lexeme, hname, rfl⟩
  · exact hoperators label hoperator
  · obtain ⟨⟨d, hd, -⟩, hparts⟩ := Value.literalNumber_chars hx
    refine ⟨fun hempty => ?_, fun c hc => not_mem_marks isNumberPart (hparts c hc) rfl⟩
    rw [text, Value.literalText] at hempty
    simp [hempty] at hd
  · exact hreserved label hword
  · exact hname.isWord

/-! ### Words tell their labels -/

/-- What a word looks like. -/
inductive Look where
  | operator
  | number
  | name
  deriving DecidableEq

/-- The look of a text by the characters that stand in it. -/
def look (text : String) : Look :=
  if text.toList.any Piece.isNameStart then .name
  else if text.toList.any Char.isDigit then .number
  else .operator

theorem look_number {x : Float} (hx : x.isFinite = true) :
    look (Value.literalNumber.write x) = .number := by
  obtain ⟨hdigit, hparts⟩ := Value.literalNumber_chars hx
  have hstart : (Value.literalNumber.write x).toList.any Piece.isNameStart = false := by
    simpa using fun c hc => not_nameStart_of_numberPart (hparts c hc)
  rw [look, hstart, List.any_eq_true.mpr hdigit]
  rfl

theorem look_name {lexeme : String} (h : IsName lexeme) : look lexeme = .name := by
  obtain ⟨c, cs, htext, hstart, -⟩ := h.spelled
  rw [look, htext, List.any_cons, hstart]
  rfl

/-- Only operators look like operators, only numbers like numbers, only names like names. -/
theorem Legible.look_cases (h : label.Legible) :
    (look label.text = .operator ∧ label ∈ operators) ∨
      (look label.text = .number ∧ ∃ x, label = .literal (.number x)) ∨
      (look label.text = .name ∧
        (label ∈ reserved ∨ ∃ lexeme, IsName lexeme ∧ label = .name lexeme)) := by
  have hoperators : ∀ label ∈ operators, look label.text = .operator := by decide
  have hreserved : ∀ label ∈ reserved, look label.text = .name := by decide
  rcases h.cases with hoperator | ⟨x, hx, rfl⟩ | hword | ⟨lexeme, hname, rfl⟩
  · exact .inl ⟨hoperators label hoperator, hoperator⟩
  · exact .inr (.inl ⟨look_number hx, x, rfl⟩)
  · exact .inr (.inr ⟨hreserved label hword, .inl hword⟩)
  · exact .inr (.inr ⟨look_name hname, .inr ⟨lexeme, hname, rfl⟩⟩)

theorem text_ne_of_reserved {lexeme : String} (h : label ∈ reserved) (hname : IsName lexeme) :
    label.text ≠ lexeme := by
  have hkinds : ∀ label ∈ reserved, TokenKind.ofName label.text ≠ .identifier := by decide
  rintro rfl
  exact hkinds label h hname.free

/-- **A word tells what it stands for**, but the minus sign does not. -/
theorem alike_of_text (h : label.Legible) (h' : other.Legible) (htext : label.text = other.text) :
    label.Alike other := by
  have hoperators : ∀ label ∈ operators, ∀ other ∈ operators, label.text = other.text →
      label = other ∨ (label.isMinus = true ∧ other.isMinus = true) := by decide
  have hreserved : ∀ label ∈ reserved, ∀ other ∈ reserved, label.text = other.text →
      label = other := by decide
  have hlook := congrArg look htext
  rcases h.look_cases with ⟨hl, hlabel⟩ | ⟨hl, x, rfl⟩ | ⟨hl, hlabel⟩ <;>
    rcases h'.look_cases with ⟨hl', hother⟩ | ⟨hl', y, rfl⟩ | ⟨hl', hother⟩ <;>
    rw [hl, hl'] at hlook
  · exact hoperators label hlabel other hother htext
  · cases hlook
  · cases hlook
  · cases hlook
  · rw [Value.clear_literalNumber.write_injective htext]
    exact .inl rfl
  · cases hlook
  · cases hlook
  · cases hlook
  · rcases hlabel with hlabel | ⟨lexeme, hname, rfl⟩ <;>
      rcases hother with hother | ⟨lexeme', hname', rfl⟩
    · exact .inl (hreserved label hlabel other hother htext)
    · exact absurd htext (text_ne_of_reserved hlabel hname')
    · exact absurd htext.symm (text_ne_of_reserved hother hname)
    · exact .inl (congrArg name htext)

/-- Any other word tells what it stands for. -/
theorem eq_of_text_of_not_isMinus (h : label.Legible) (h' : other.Legible)
    (hminus : label.isMinus = false) (htext : label.text = other.text) : label = other :=
  (alike_of_text h h' htext).resolve_right fun hboth => by simp [hminus] at hboth

end Label

theorem UnaryOp.symbol_injective : Function.Injective UnaryOp.symbol := by
  intro op op' h
  rcases @Label.alike_of_text (.unary op) (.unary op') trivial trivial h with heq | ⟨hminus, hminus'⟩
  · exact Label.unary.inj heq
  · cases op <;> cases op' <;> trivial

theorem BinaryOp.symbol_injective : Function.Injective BinaryOp.symbol := by
  have hisMinus (op : BinaryOp) (h : (Label.binary op).isMinus = true) : op = .minus := by
    cases op <;> trivial
  intro op op' h
  rcases @Label.alike_of_text (.binary op) (.binary op') trivial trivial h with heq | ⟨hminus, hminus'⟩
  · exact Label.binary.inj heq
  · rw [hisMinus op hminus, hisMinus op' hminus']

end LoxLang
