import LoxLang.Proofs.Tree.Labels
import LoxLang.Proofs.Tree.Lines

/-!
# Reading the reverse Polish text

The reverse Polish text of an expression gives its labels in order, each operator after its
operands, and a stack of expressions builds the expression again from its labels
(`Expr.foldl_push_labels`). Groupings leave no trace in the text and are not built.

The text tells the labels but for the minus signs: it does not say whether one has one operand or
two. So `a - -b` and `-(a - b)` are written alike (`Expr.render_minusSigns_collide`), and the text
tells an expression just up to the kinds of its minus signs (`Expr.ungrouped_of_render`). It tells
the whole expression where minus signs of one kind only stand in it.
-/

namespace LoxLang

/-! ### Words after one another -/

/-- The characters of words, each with a blank after it. -/
def spaced (words : List String) : List Char := words.flatMap fun word => word.toList ++ [' ']

theorem spaced_cons (word : String) (words : List String) :
    spaced (word :: words) = word.toList ++ ' ' :: spaced words := by
  simp [spaced]

theorem spaced_append (words words' : List String) :
    spaced (words ++ words') = spaced words ++ spaced words' :=
  List.flatMap_append

/-- Words can be told apart. -/
theorem spaced_inj {words words' : List String} (h : ∀ word ∈ words, IsWord word)
    (h' : ∀ word ∈ words', IsWord word) (heq : spaced words = spaced words') : words = words' := by
  induction words generalizing words' with
  | nil =>
    cases words' with
    | nil => rfl
    | cons word' words' => simp [spaced] at heq
  | cons word words ih =>
    cases words' with
    | nil => simp [spaced] at heq
    | cons word' words' =>
      rw [List.forall_mem_cons] at h h'
      rw [spaced_cons, spaced_cons] at heq
      obtain ⟨rfl, hrest⟩ :=
        h.1.append_inj h'.1 (by simp [AtMark, marks]) (by simp [AtMark, marks]) heq
      rw [ih h.2 h'.2 (List.cons.inj hrest).2]

namespace Expr

/-! ### The labels of an expression -/

/-- The labels of an expression, each operator after its operands. -/
def labels : Expr → List Label
  | .literal value => [.literal value]
  | .variable name => [.name name.lexeme]
  | .grouping inner => inner.labels
  | .unary op _ right => right.labels ++ [.unary op]
  | .binary left op _ right => left.labels ++ right.labels ++ [.binary op]
  | .assign name value => value.labels ++ [.name name.lexeme, .assign]

/-- The expression without its groupings. -/
def ungrouped : Expr → Expr
  | .literal value => .literal value
  | .variable name => .variable name
  | .grouping inner => inner.ungrouped
  | .unary op token right => .unary op token right.ungrouped
  | .binary left op token right => .binary left.ungrouped op token right.ungrouped
  | .assign name value => .assign name value.ungrouped

theorem labels_ungrouped (e : Expr) : e.ungrouped.labels = e.labels := by
  induction e <;> simp_all [ungrouped, labels]

theorem labels_mapLine (g : Nat → Nat) (e : Expr) : (e.mapLine g).labels = e.labels := by
  induction e <;> simp_all [mapLine, labels]

/-- The text of an expression gives its labels. -/
theorem toList_render_reversePolish (e : Expr) :
    (e.render .reversePolish).toList ++ [' '] = spaced (e.labels.map Label.text) := by
  induction e with
  | literal value => simp [render, labels, spaced, Label.text]
  | «variable» name => simp [render, labels, spaced, Label.text]
  | grouping inner ih => exact ih
  | unary op token right ih =>
    rw [labels, List.map_append, spaced_append, ← ih]
    simp [render, TreeStyle.node, spaced, Label.text]
  | binary left op token right ihleft ihright =>
    rw [labels, List.map_append, List.map_append, spaced_append, spaced_append, ← ihleft, ← ihright]
    simp [render, TreeStyle.node, spaced, Label.text]
  | assign name value ih =>
    rw [labels, List.map_append, spaced_append, ← ih]
    simp [render, TreeStyle.node, spaced, Label.text]

theorem Legible.labels {e : Expr} (h : e.Legible) : ∀ label ∈ e.labels, label.Legible := by
  induction e with
  | literal value => exact List.forall_mem_singleton.mpr h
  | «variable» name => exact List.forall_mem_singleton.mpr h.2
  | grouping inner ih => exact ih h
  | unary op token right ih =>
    simpa [Expr.labels, or_imp, forall_and] using ⟨ih h.2, trivial⟩
  | binary left op token right ihleft ihright =>
    simpa [Expr.labels, or_imp, forall_and] using ⟨ihleft h.1, ihright h.2.2, trivial⟩
  | assign name value ih =>
    simpa [Expr.labels, or_imp, forall_and] using ⟨ih h.2, h.1.2, trivial⟩

end Expr

/-! ### Building expressions -/

/-- What a label does to a stack of expressions: an operand is put on it, and an operator takes its
operands from it. -/
def Label.push : Label → List Expr → List Expr
  | .literal value, stack => .literal value :: stack
  | .name lexeme, stack => .variable ⟨.identifier, lexeme, none, 0⟩ :: stack
  | .unary op, right :: stack => .unary op ⟨op.tokenKind, op.symbol, none, 0⟩ right :: stack
  | .binary op, right :: left :: stack =>
    .binary left op ⟨op.tokenKind, op.symbol, none, 0⟩ right :: stack
  | .assign, .variable target :: value :: stack => .assign target value :: stack
  | _, stack => stack

namespace Expr

/-- **The labels of an expression build it**, but for its groupings and lines. -/
theorem foldl_push_labels {e : Expr} (h : e.Legible) (stack : List Expr) :
    e.labels.foldl (fun stack label => label.push stack) stack =
      e.ungrouped.mapLine (fun _ => 0) :: stack := by
  induction e generalizing stack with
  | literal value => rfl
  | «variable» name =>
    rw [ungrouped, mapLine, h.1.mapLine_zero]
    rfl
  | grouping inner ih => exact ih h stack
  | unary op token right ih =>
    rw [Expr.labels, List.foldl_append, ih h.2, ungrouped, mapLine, h.1.mapLine_zero]
    rfl
  | binary left op token right ihleft ihright =>
    rw [Expr.labels, List.foldl_append, List.foldl_append, ihleft h.1, ihright h.2.2, ungrouped,
      mapLine, h.2.1.mapLine_zero]
    rfl
  | assign name value ih =>
    rw [Expr.labels, List.foldl_append, ih h.2, ungrouped, mapLine, h.1.1.mapLine_zero]
    rfl

theorem ungrouped_eq_iff_labels {e e' : Expr} (h : e.Legible) (h' : e'.Legible) :
    e.ungrouped.mapLine (fun _ => 0) = e'.ungrouped.mapLine (fun _ => 0) ↔
      e.labels = e'.labels := by
  constructor
  · intro heq
    have hlabels := congrArg Expr.labels heq
    rwa [labels_mapLine, labels_mapLine, labels_ungrouped, labels_ungrouped] at hlabels
  · intro heq
    have hbuilt := foldl_push_labels h []
    rw [heq, foldl_push_labels h'] at hbuilt
    exact (List.cons.inj hbuilt).1.symm

end Expr

/-! ### Minus signs -/

namespace Label

variable {labels others : List Label}

theorem forall₂_alike (h : ∀ label ∈ labels, label.Legible) (h' : ∀ other ∈ others, other.Legible)
    (htext : labels.map text = others.map text) : List.Forall₂ Alike labels others := by
  induction labels generalizing others with
  | nil =>
    rw [List.map_eq_nil_iff.mp htext.symm]
    exact .nil
  | cons label labels ih =>
    obtain ⟨other, others, rfl, hother, hrest⟩ := List.map_eq_cons_iff.mp htext.symm
    rw [List.forall_mem_cons] at h h'
    exact .cons (alike_of_text h.1 h'.1 hother.symm) (ih h.2 h'.2 hrest.symm)

/-- Lists that are alike differ in their minus signs only. -/
theorem filter_not_isMinus_of_alike (h : List.Forall₂ Alike labels others) :
    labels.filter (!isMinus ·) = others.filter (!isMinus ·) := by
  induction h with
  | nil => rfl
  | @cons label other _ _ halike _ ih =>
    rw [List.filter_cons, List.filter_cons, ih]
    rcases halike with rfl | ⟨hminus, hminus'⟩
    · rfl
    · simp [hminus, hminus']

theorem eq_of_alike (h : List.Forall₂ Alike labels others)
    (hminus : labels.filter isMinus = others.filter isMinus) : labels = others := by
  induction h with
  | nil => rfl
  | @cons label other _ _ halike _ ih =>
    rcases halike with rfl | ⟨hlabel, hother⟩
    · rw [ih]
      cases hlabel : label.isMinus <;> simpa [List.filter_cons, hlabel] using hminus
    · rw [List.filter_cons_of_pos hlabel, List.filter_cons_of_pos hother, List.cons.injEq] at hminus
      rw [hminus.1, ih hminus.2]

/-- Literals and names. -/
def isOperand : Label → Bool
  | .literal _ | .name _ => true
  | _ => false

/-- The operators with two operands. -/
def takesTwo : Label → Bool
  | .binary _ | .assign => true
  | _ => false

theorem eq_of_isMinus {label : Label} (h : label.isMinus = true) :
    (label = .unary .negate ∧ label.takesTwo = false) ∨
      (label = .binary .minus ∧ label.takesTwo = true) := by
  unfold isMinus at h
  split at h
  · exact .inl ⟨rfl, rfl⟩
  · exact .inr ⟨rfl, rfl⟩
  · cases h

end Label

namespace Expr

/-- The minus signs of an expression in the order of the reverse Polish text, each with one operand
or with two. -/
def minusSigns (e : Expr) : List Label := e.labels.filter Label.isMinus

/-- Minus signs with one operand and with two stand in the expression. -/
def MixesMinus (e : Expr) : Prop := .unary .negate ∈ e.labels ∧ .binary .minus ∈ e.labels

/-- There is one operand more than there are operators with two. -/
theorem countP_isOperand_labels (e : Expr) :
    e.labels.countP Label.isOperand = e.labels.countP Label.takesTwo + 1 := by
  induction e with
  | literal value => rfl
  | «variable» name => rfl
  | grouping inner ih => exact ih
  | unary op token right ih =>
    rw [labels, List.countP_append, List.countP_append, ih]
    rfl
  | binary left op token right ihleft ihright =>
    have hoperand : [Label.binary op].countP Label.isOperand = 0 := rfl
    have htwo : [Label.binary op].countP Label.takesTwo = 1 := rfl
    simp only [labels, List.countP_append, ihleft, ihright, hoperand, htwo]
    omega
  | assign name value ih =>
    have hoperand : [Label.name name.lexeme, .assign].countP Label.isOperand = 1 := rfl
    have htwo : [Label.name name.lexeme, .assign].countP Label.takesTwo = 1 := rfl
    rw [labels, List.countP_append, List.countP_append, ih, hoperand, htwo]

theorem eq_of_mem_minusSigns {e : Expr} {sign : Label} (h : sign ∈ e.minusSigns) :
    (sign = .unary .negate ∧ sign.takesTwo = false) ∨
      (sign = .binary .minus ∧ sign.takesTwo = true) :=
  Label.eq_of_isMinus (List.mem_filter.mp h).2

theorem countP_isOperand_minusSigns (e : Expr) : e.minusSigns.countP Label.isOperand = 0 := by
  refine List.countP_eq_zero.mpr fun sign hsign => ?_
  rcases eq_of_mem_minusSigns hsign with ⟨rfl, -⟩ | ⟨rfl, -⟩ <;> simp [Label.isOperand]

theorem forall_unary_iff {e : Expr} : (∀ sign ∈ e.minusSigns, sign = .unary .negate) ↔
    e.minusSigns.countP Label.takesTwo = 0 := by
  rw [List.countP_eq_zero]
  refine forall₂_congr fun sign hsign => ?_
  rcases eq_of_mem_minusSigns hsign with ⟨rfl, htwo⟩ | ⟨rfl, htwo⟩ <;> simp [htwo]

theorem forall_binary_iff {e : Expr} : (∀ sign ∈ e.minusSigns, sign = .binary .minus) ↔
    e.minusSigns.countP Label.takesTwo = e.minusSigns.length := by
  rw [List.countP_eq_length]
  refine forall₂_congr fun sign hsign => ?_
  rcases eq_of_mem_minusSigns hsign with ⟨rfl, htwo⟩ | ⟨rfl, htwo⟩ <;> simp [htwo]

/-- Expressions with labels that are alike have as many minus signs, and as many of them have two
operands. -/
theorem counts_of_alike {e e' : Expr} (h : List.Forall₂ Label.Alike e.labels e'.labels) :
    e.minusSigns.length = e'.minusSigns.length ∧
      e.minusSigns.countP Label.takesTwo = e'.minusSigns.countP Label.takesTwo := by
  have hothers := Label.filter_not_isMinus_of_alike h
  have hlength (e : Expr) : e.labels.length =
      e.minusSigns.length + (e.labels.filter (!Label.isMinus ·)).length :=
    List.length_eq_length_filter_add Label.isMinus
  have hcount (e : Expr) (p : Label → Bool) : e.labels.countP p =
      e.minusSigns.countP p + (e.labels.filter (!Label.isMinus ·)).countP p :=
    List.countP_eq_countP_filter_add e.labels p Label.isMinus
  -- All operands are among the other labels, so these tell how many operators have two.
  have hoperands (e : Expr) : (e.labels.filter (!Label.isMinus ·)).countP Label.isOperand =
      e.minusSigns.countP Label.takesTwo +
        (e.labels.filter (!Label.isMinus ·)).countP Label.takesTwo + 1 := by
    rw [← hcount, ← countP_isOperand_labels, hcount e Label.isOperand, countP_isOperand_minusSigns,
      Nat.zero_add]
  constructor
  · have hsame := h.length_eq
    rw [hlength, hlength e', hothers] at hsame
    exact Nat.add_right_cancel hsame
  · have hsame := hoperands e
    rw [hothers, hoperands e'] at hsame
    omega

/-- An expression that does not mix the minus signs tells which ones stand in one alike. -/
theorem minusSigns_eq_of_not_mixesMinus {e e' : Expr}
    (h : List.Forall₂ Label.Alike e.labels e'.labels) (hmixes : ¬ e.MixesMinus) :
    e.minusSigns = e'.minusSigns := by
  obtain ⟨hlength, htwo⟩ := counts_of_alike h
  rcases not_and_or.mp hmixes with hunary | hbinary
  · have hall : ∀ sign ∈ e.minusSigns, sign = .binary .minus := by
      intro sign hsign
      refine (eq_of_mem_minusSigns hsign).elim (fun heq => ?_) And.left
      exact absurd (heq.1 ▸ (List.mem_filter.mp hsign).1) hunary
    have hall' : ∀ sign ∈ e'.minusSigns, sign = .binary .minus := by
      rwa [forall_binary_iff, ← htwo, ← hlength, ← forall_binary_iff]
    rw [List.eq_replicate_of_mem hall, List.eq_replicate_of_mem hall', hlength]
  · have hall : ∀ sign ∈ e.minusSigns, sign = .unary .negate := by
      intro sign hsign
      refine (eq_of_mem_minusSigns hsign).elim And.left fun heq => ?_
      exact absurd (heq.1 ▸ (List.mem_filter.mp hsign).1) hbinary
    have hall' : ∀ sign ∈ e'.minusSigns, sign = .unary .negate := by
      rwa [forall_unary_iff, ← htwo, ← forall_unary_iff]
    rw [List.eq_replicate_of_mem hall, List.eq_replicate_of_mem hall', hlength]

/-! ### The text -/

/-- Legible expressions with the same text have labels that are alike. -/
theorem alike_of_render {e e' : Expr} (h : e.Legible) (h' : e'.Legible)
    (hrender : e.render .reversePolish = e'.render .reversePolish) :
    List.Forall₂ Label.Alike e.labels e'.labels := by
  have hspaced : spaced (e.labels.map Label.text) = spaced (e'.labels.map Label.text) := by
    rw [← toList_render_reversePolish, ← toList_render_reversePolish, hrender]
  have htexts := spaced_inj
    (List.forall_mem_map.mpr fun label hlabel => (h.labels label hlabel).isWord)
    (List.forall_mem_map.mpr fun label hlabel => (h'.labels label hlabel).isWord) hspaced
  exact Label.forall₂_alike h.labels h'.labels htexts

/-- **The reverse Polish text tells an expression up to its minus signs.** Expressions that are read
from source texts, without strings and with finite numbers only, and that are written alike, are the
same but for groupings and lines exactly if each minus sign has as many operands in one as in the
other. They are where minus signs of one kind only stand in one of the two. -/
theorem ungrouped_of_render {e e' : Expr} (h : e.FromSource) (h' : e'.FromSource)
    (hplain : e.IsPlain) (hplain' : e'.IsPlain)
    (hrender : e.render .reversePolish = e'.render .reversePolish) :
    (e.ungrouped.mapLine (fun _ => 0) = e'.ungrouped.mapLine (fun _ => 0) ↔
      e.minusSigns = e'.minusSigns) ∧
    (¬ e.MixesMinus ∨ ¬ e'.MixesMinus →
      e.ungrouped.mapLine (fun _ => 0) = e'.ungrouped.mapLine fun _ => 0) := by
  have hlegible := h.legible hplain
  have hlegible' := h'.legible hplain'
  have htold : e.ungrouped.mapLine (fun _ => 0) = e'.ungrouped.mapLine (fun _ => 0) ↔
      e.minusSigns = e'.minusSigns := by
    rw [ungrouped_eq_iff_labels hlegible hlegible']
    exact ⟨fun heq => by rw [minusSigns, heq]; rfl,
      Label.eq_of_alike (alike_of_render hlegible hlegible' hrender)⟩
  refine ⟨htold, fun hmixes => htold.mpr ?_⟩
  rcases hmixes with hmixes | hmixes
  · exact minusSigns_eq_of_not_mixesMinus (alike_of_render hlegible hlegible' hrender) hmixes
  · exact (minusSigns_eq_of_not_mixesMinus
      (alike_of_render hlegible' hlegible hrender.symm) hmixes).symm

/-- A difference of a difference, on one line or on two. -/
def nestedDifference (grouped : Bool) (line : Nat) : Expr :=
  let minus (line : Nat) : Token := ⟨.minus, "-", none, line⟩
  let a : Expr := .variable ⟨.identifier, "a", none, 1⟩
  .binary (if grouped then .grouping a else a) .minus (minus 1)
    (.grouping (.binary (.variable ⟨.identifier, "b", none, line⟩) .minus (minus line)
      (.literal (Piece.numberValue ['1'] []))))

theorem isPlain_nestedDifference (grouped : Bool) (line : Nat) :
    (nestedDifference grouped line).IsPlain := by
  intro value hvalue
  have hone : value = Piece.numberValue ['1'] [] := by
    cases grouped <;> simpa [nestedDifference, parts] using hvalue
  rw [hone]
  show Float.isFinite _ = true
  decide +kernel

/-- No minus sign in it stands before its operand. -/
theorem ungrouped_of_render_nestedDifference :
    let e := nestedDifference false 1
    let e' := nestedDifference true 2
    Program.ofSource false "a - (b - 1);" = .ok [.expression e] ∧
    Program.ofSource true "(a) -\n(b - 1)" = .ok [.expression e'] ∧
    e.render .reversePolish = "a b 1 - -" ∧ e'.render .reversePolish = "a b 1 - -" ∧
    ¬ e.MixesMinus ∧ e.minusSigns = e'.minusSigns ∧
    e.ungrouped.mapLine (fun _ => 0) = e'.ungrouped.mapLine fun _ => 0 := by
  intro e e'
  have hsource : Program.ofSource false "a - (b - 1);" = .ok [.expression e] := by decide +kernel
  have hsource' : Program.ofSource true "(a) -\n(b - 1)" = .ok [.expression e'] := by
    decide +kernel
  have hrender : e.render .reversePolish = "a b 1 - -" := by decide +kernel
  have hrender' : e'.render .reversePolish = "a b 1 - -" := by decide +kernel
  have hmixes : ¬ e.MixesMinus := fun hmixes => by
    simp [e, nestedDifference, MixesMinus, labels] at hmixes
  obtain ⟨htold, hsame⟩ := ungrouped_of_render
    (fromSource_of_expression hsource) (fromSource_of_expression hsource')
    (isPlain_nestedDifference _ _) (isPlain_nestedDifference _ _) (hrender.trans hrender'.symm)
  have hequal := hsame (.inl hmixes)
  exact ⟨hsource, hsource', hrender, hrender', hmixes, htold.mp hequal, hequal⟩

/-- A difference from a negated variable. -/
def differenceOfNegated : Expr :=
  .binary (.variable ⟨.identifier, "a", none, 1⟩) .minus ⟨.minus, "-", none, 1⟩
    (.unary .negate ⟨.minus, "-", none, 1⟩ (.variable ⟨.identifier, "b", none, 1⟩))

/-- A negated difference. -/
def negatedDifference : Expr :=
  .unary .negate ⟨.minus, "-", none, 1⟩
    (.grouping (.binary (.variable ⟨.identifier, "a", none, 1⟩) .minus ⟨.minus, "-", none, 1⟩
      (.variable ⟨.identifier, "b", none, 1⟩)))

/-- **Minus signs collide**: two expressions that are not the same without groupings are written
alike. -/
theorem render_minusSigns_collide :
    Program.ofSource false "a - -b;" = .ok [.expression differenceOfNegated] ∧
    Program.ofSource false "-(a - b);" = .ok [.expression negatedDifference] ∧
    differenceOfNegated.FromSource ∧ negatedDifference.FromSource ∧
    differenceOfNegated.IsPlain ∧ negatedDifference.IsPlain ∧
    differenceOfNegated.render .reversePolish = "a b - -" ∧
    negatedDifference.render .reversePolish = "a b - -" ∧
    differenceOfNegated.ungrouped.mapLine (fun _ => 0) ≠
      negatedDifference.ungrouped.mapLine (fun _ => 0) := by
  have hsource : Program.ofSource false "a - -b;" = .ok [.expression differenceOfNegated] := by
    decide +kernel
  have hsource' : Program.ofSource false "-(a - b);" = .ok [.expression negatedDifference] := by
    decide +kernel
  refine ⟨hsource, hsource', fromSource_of_expression hsource, fromSource_of_expression hsource',
    fun value hvalue => ?_, fun value hvalue => ?_, by decide +kernel, by decide +kernel,
    by decide +kernel⟩
  · simp [differenceOfNegated, parts] at hvalue
  · simp [negatedDifference, parts] at hvalue

end Expr

end LoxLang
